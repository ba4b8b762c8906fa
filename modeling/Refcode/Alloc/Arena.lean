import Refcode.Alloc.Heap

/-!
# An allocator that always moves

The tests of the aligned allocator run it over callbacks whose `realloc` takes a
new block every time, copies, and frees the old one.  `movingArena` is such an
allocator: it cuts its blocks off the front of unused memory and never uses an
address twice.

* `movingArena_contract` — it keeps the contract the aligned allocator relies on.
* `Run.of_perform` — the client can be run over it, or over any other allocator,
  by evaluation.
-/

namespace Refcode.Alloc

open Refcode.Lib

variable {q : ℕ}

/-! ## The allocator -/

/-- The first unused address and the live blocks. -/
structure Arena (q : ℕ) where
  next : ℕ
  blocks : List (Block q)

/-- Cut `sz` bytes off the unused memory; `NULL` when they are not there. -/
def Arena.malloc (sz : Word q) (W : World q (Arena q)) : Word q × World q (Arena q) :=
  if W.priv.next + sz.toNat < 2 ^ (8 * q) then
    let p := BitVec.ofNat _ W.priv.next
    (p, { W with priv := ⟨W.priv.next + sz.toNat, ⟨p, sz⟩ :: W.priv.blocks⟩ })
  else (0, W)

theorem Arena.malloc_mem {sz : Word q} {W : World q (Arena q)} :
    (Arena.malloc sz W).2.mem = W.mem := by
  unfold Arena.malloc
  split_ifs <;> rfl

/-- Drop the live block at `p`. -/
def Arena.free (p : Word q) (W : World q (Arena q)) : World q (Arena q) :=
  { W with priv := { W.priv with blocks := W.priv.blocks.filter fun b => b.base ≠ p } }

/-- Take a new block, copy what fits, and free the old one. -/
def Arena.realloc (p sz : Word q) (W : World q (Arena q)) : Word q × World q (Arena q) :=
  match W.priv.blocks.find? fun b => b.base = p with
  | none => (0, W)
  | some old =>
    let r := Arena.malloc sz (Arena.free p W)
    if r.1 = 0 then (0, W)
    else (r.1, { r.2 with mem := r.2.mem.move r.1 p (min old.size.toNat sz.toNat) })

/-- The allocator that always moves. -/
def movingArena (q : ℕ) : Backing q (Arena q) := ⟨Arena.malloc, Arena.realloc, Arena.free⟩

/-! ## It keeps the contract -/

/-- The live blocks are not empty, lie below the unused memory, and share no
byte. -/
structure Arena.Ok (A : Arena q) : Prop where
  next_pos : 0 < A.next
  size_ne : ∀ b ∈ A.blocks, b.size ≠ 0
  below : ∀ b ∈ A.blocks, b.base.toNat + b.size.toNat ≤ A.next
  next_le : A.next < 2 ^ (8 * q)
  apart : ∀ b ∈ A.blocks, ∀ c ∈ A.blocks, b ≠ c → b.Apart c

namespace Arena.Ok

variable {A : Arena q} {W : World q (Arena q)} {b c : Block q} {sz p : Word q}

/-- Live blocks are told apart by their bases. -/
theorem base_inj (h : A.Ok) (hb : b ∈ A.blocks) (hc : c ∈ A.blocks) (heq : b.base = c.base) :
    b = c := by
  by_contra hne
  exact (h.apart b hb c hc hne).base_ne (h.size_ne b hb) (h.size_ne c hc) heq

/-- Dropping a block by its base drops that block. -/
theorem mem_filter (h : A.Ok) (hb : b ∈ A.blocks) :
    c ∈ A.blocks.filter (fun c => c.base ≠ b.base) ↔ c ∈ A.blocks ∧ c ≠ b := by
  rw [List.mem_filter, decide_eq_true_eq]
  refine and_congr_right fun hc => not_congr ⟨h.base_inj hc hb, ?_⟩
  rintro rfl
  rfl

/-- `Arena.Ok` also holds with fewer live blocks. -/
theorem mono {bs : List (Block q)} (h : A.Ok) (hbs : ∀ b ∈ bs, b ∈ A.blocks) :
    Arena.Ok ⟨A.next, bs⟩ :=
  ⟨h.next_pos, fun b hb => h.size_ne b (hbs b hb), fun b hb => h.below b (hbs b hb), h.next_le,
    fun b hb c hc => h.apart b (hbs b hb) c (hbs c hc)⟩

/-- A block cut off the unused memory is apart from the live ones. -/
theorem malloc (h : W.priv.Ok) (hsz : sz ≠ 0) :
    (Arena.malloc sz W).2.priv.Ok ∧
      Granted sz (Arena.malloc sz W).1 {b | b ∈ W.priv.blocks}
        {b | b ∈ (Arena.malloc sz W).2.priv.blocks} W.mem (Arena.malloc sz W).2.mem := by
  unfold Arena.malloc
  split_ifs with hfits
  · have hnext := h.next_pos
    have hp : (BitVec.ofNat (8 * q) W.priv.next).toNat = W.priv.next := by
      rw [BitVec.toNat_ofNat, Nat.mod_eq_of_lt h.next_le]
    have hne : BitVec.ofNat (8 * q) W.priv.next ≠ 0 := by
      intro h0
      rw [h0] at hp
      simp at hp
      omega
    have hnew : ∀ b ∈ W.priv.blocks, Block.Apart ⟨BitVec.ofNat _ W.priv.next, sz⟩ b := by
      intro b hb a ha ha'
      have hbelow := h.below b hb
      have hlt := h.next_le
      rw [Block.Has, inRange_iff (by simp only [hp]; omega)] at ha
      rw [Block.Has, inRange_iff (by omega)] at ha'
      simp only [hp] at ha
      omega
    refine ⟨⟨?_, ?_, ?_, hfits, ?_⟩, ⟨fun _ _ _ _ => rfl, fun h0 => absurd h0 hne, fun _ => ?_,
      fun _ => by rwa [hp], fun _ => hnew⟩⟩
    · exact Nat.lt_of_lt_of_le hnext (Nat.le_add_right _ _)
    · rintro b (_ | ⟨_, hb⟩)
      · exact hsz
      · exact h.size_ne b hb
    · rintro b (_ | ⟨_, hb⟩)
      · exact (congrArg (· + sz.toNat) hp).le
      · exact (h.below b hb).trans (Nat.le_add_right _ _)
    · rintro b (_ | ⟨_, hb⟩) c (_ | ⟨_, hc⟩) hbc
      · exact absurd rfl hbc
      · exact hnew c hc
      · exact (hnew b hb).symm
      · exact h.apart b hb c hc hbc
    · ext b
      simp
  · exact ⟨h, ⟨fun _ _ _ _ => rfl, fun _ => rfl, fun h0 => absurd rfl h0, fun h0 => absurd rfl h0,
      fun h0 => absurd rfl h0⟩⟩

/-- Dropping a live block is all that `free` does. -/
theorem free (h : W.priv.Ok) (hb : b ∈ W.priv.blocks) :
    (Arena.free b.base W).priv.Ok ∧
      {c | c ∈ (Arena.free b.base W).priv.blocks} = {c | c ∈ W.priv.blocks} \ {b} := by
  refine ⟨h.mono fun c hc => (List.mem_filter.1 hc).1, ?_⟩
  ext c
  exact h.mem_filter hb

/-- The new block of a `realloc` holds the first bytes of the old one. -/
theorem realloc (h : W.priv.Ok) (hb : b ∈ W.priv.blocks) (hsz : sz ≠ 0) :
    (Arena.realloc b.base sz W).2.priv.Ok ∧
      Resized b sz (Arena.realloc b.base sz W).1 {c | c ∈ W.priv.blocks}
        {c | c ∈ (Arena.realloc b.base sz W).2.priv.blocks} W.mem
        (Arena.realloc b.base sz W).2.mem := by
  have hfind : W.priv.blocks.find? (fun c => c.base = b.base) = some b := by
    have hsome : (W.priv.blocks.find? fun c => c.base = b.base).isSome :=
      List.find?_isSome.2 ⟨b, hb, decide_eq_true rfl⟩
    obtain ⟨c, hc⟩ := Option.isSome_iff_exists.1 hsome
    have hdec := List.find?_some hc
    have hcb : c.base = b.base := of_decide_eq_true hdec
    rw [hc, h.base_inj (List.mem_of_find?_eq_some hc) hb hcb]
  obtain ⟨hfree, hrest⟩ := h.free hb
  obtain ⟨hok, hgr⟩ := hfree.malloc hsz
  rw [hrest] at hgr
  unfold Arena.realloc
  simp only [hfind]
  split_ifs with hnull
  · exact ⟨h, fun _ _ _ _ => rfl, fun _ => ⟨rfl, fun _ _ _ _ => rfl⟩, fun h0 => absurd rfl h0,
      fun h0 => absurd rfl h0, fun h0 => absurd rfl h0, fun h0 => absurd rfl h0⟩
  · have hle := Nat.min_le_right b.size.toNat sz.toNat
    refine ⟨hok, fun c hc a ha => ?_, fun h0 => absurd h0 hnull, fun _ => hgr.granted hnull,
      fun _ => hgr.fits hnull, fun _ => hgr.apart hnull, fun _ i hi => ?_⟩
    · refine (Mem.move_of_not_inRange fun hin => ?_).trans (hgr.kept c hc a ha)
      exact hgr.apart hnull c hc a (hin.mono hle) ha
    · have hsize := sz.isLt
      refine (Mem.move_offset hi (by omega)).trans ?_
      rw [Arena.malloc_mem]
      rfl

end Arena.Ok

/-- **The arena keeps the contract** of a backing allocator. -/
def movingArena_contract : Contract (movingArena q) where
  live := fun A => {b | b ∈ A.blocks}
  ok := fun W => W.priv.Ok
  frame := fun h _ => h
  malloc := fun h hsz => h.malloc hsz
  realloc := fun h hsz hold => h.realloc hold hsz
  free := fun h hold => ⟨(h.free hold).1, fun _ _ _ _ => rfl, (h.free hold).2⟩

/-- An arena of which nothing has been used. -/
def Arena.fresh (q : ℕ) : World q (Arena q) := ⟨fun _ => 0, ⟨1, []⟩⟩

theorem Arena.fresh_ok (hq : 0 < q) : (Arena.fresh q).priv.Ok :=
  ⟨Nat.one_pos, by simp [fresh], by simp [fresh], Nat.one_lt_two_pow (by omega), by simp [fresh]⟩

theorem Arena.fresh_live : movingArena_contract.live (Arena.fresh q).priv = ∅ :=
  Set.eq_empty_of_forall_notMem fun _ hb => absurd hb List.not_mem_nil

/-! ## A client of it -/

/-- A client of two variables: it lets a small buffer grow, and drops a second
one. -/
def sampleOps : List (Op 1 Bool) :=
  [.malloc true 2 4, .write true 1 7, .malloc false 1 2, .realloc true 5 4, .free false]

/-- What the sample client does, one-byte addresses being enough for it. -/
def sampleRun : State 1 (Arena 1) Bool × List (Op 1 Bool × Bool) :=
  (perform (movingArena 1) none (State.initial (Arena.fresh 1)) sampleOps).get (by decide)

/-- Where it ends up. -/
def sample : State 1 (Arena 1) Bool := sampleRun.1

theorem sample_run : Run (Step (movingArena 1) none) (State.initial (Arena.fresh 1))
    (sampleOps.map fun op => (op, true)) sample := by
  have htr : sampleRun.2 = sampleOps.map fun op => (op, true) := by decide
  have hrun : perform (movingArena 1) none (State.initial (Arena.fresh 1)) sampleOps
      = some sampleRun := (Option.some_get _).symm
  rw [← htr]
  exact Run.of_perform hrun

/-- The payload has moved with the block, to another residue of the alignment. -/
example : sample.world.mem.read (sample.ptr true) 5 = [0, 7, 0, 0, 0] := by decide

end Refcode.Alloc
