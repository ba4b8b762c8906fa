import Refcode.Lib.Ledger
import Refcode.Alloc.Refinement

/-!
# The ledger of the backing allocator

Every call that reaches the backing allocator is written down by wrapping its
functions (`Backing.logged`, `NsAllocationCallbacks.logged`), which changes nothing
the aligned functions or the client can see (`Run.logged`).

* `Books` — the log and the live blocks agree: no call ever brought a pointer
  that was not the base of a live block.
* `Contract.logged` — the wrapped allocator keeps its contract with the books in
  order, whatever the client does.
* `alignedHeap_ledger` — no leak, no double free, no foreign pointer.
-/

namespace Refcode.Alloc

open Refcode.Lib

variable {q : ℕ} {σ ι : Type*}

/-! ## Writing the calls down -/

/-- A call of the backing allocator with its answer. -/
inductive Call (q : ℕ) where
  | malloc (sz p : Word q)
  | realloc (old sz p : Word q)
  | free (old : Word q)

/-- The pointers a call brings, retires and hands out.  A `realloc` answered with
`NULL` retires nothing. -/
def Call.entry : Call q → Entry (Word q)
  | .malloc _ p => ⟨none, false, if p = 0 then none else some p⟩
  | .realloc old _ p => ⟨some old, p ≠ 0, if p = 0 then none else some p⟩
  | .free old => ⟨some old, true, none⟩

theorem Call.entry_malloc {sz p : Word q} (hp : p ≠ 0) :
    (Call.malloc sz p).entry = ⟨none, false, some p⟩ := by
  rw [Call.entry, if_neg hp]

theorem Call.entry_realloc {old sz p : Word q} (hp : p ≠ 0) :
    (Call.realloc old sz p).entry = ⟨some old, true, some p⟩ := by
  rw [Call.entry, if_neg hp, decide_eq_true hp]

/-- The bases of the blocks that are live after the calls of a log. -/
def liveBases (log : List (Call q)) : List (Word q) := outstanding (log.map Call.entry)

/-- A world whose allocator also keeps a log of the calls. -/
abbrev LoggedWorld (q : ℕ) (σ : Type*) := World q (σ × List (Call q))

/-- Forget the log. -/
def World.erase (W : LoggedWorld q σ) : World q σ := ⟨W.mem, W.priv.1⟩

/-- A world with a log added. -/
def World.withLog (W : World q σ) (log : List (Call q)) : LoggedWorld q σ :=
  ⟨W.mem, (W.priv, log)⟩

/-- The world after a call, with the call at the end of the log. -/
def World.note (W : LoggedWorld q σ) (W' : World q σ) (c : Call q) : LoggedWorld q σ :=
  W'.withLog (W.priv.2 ++ [c])

/-- A `malloc` that writes its calls down. -/
def logMalloc (malloc : Word q → World q σ → Word q × World q σ) (sz : Word q)
    (W : LoggedWorld q σ) : Word q × LoggedWorld q σ :=
  let r := malloc sz W.erase
  (r.1, W.note r.2 (.malloc sz r.1))

/-- A `realloc` that writes its calls down. -/
def logRealloc (realloc : Word q → Word q → World q σ → Word q × World q σ) (old sz : Word q)
    (W : LoggedWorld q σ) : Word q × LoggedWorld q σ :=
  let r := realloc old sz W.erase
  (r.1, W.note r.2 (.realloc old sz r.1))

/-- A `free` that writes its calls down. -/
def logFree (free : Word q → World q σ → World q σ) (old : Word q) (W : LoggedWorld q σ) :
    LoggedWorld q σ :=
  W.note (free old W.erase) (.free old)

/-- The same backing allocator with a log. -/
def Backing.logged (B : Backing q σ) : Backing q (σ × List (Call q)) where
  malloc := logMalloc B.malloc
  realloc := logRealloc B.realloc
  free := logFree B.free

/-- The same callbacks with a log; a `NULL` callback stays `NULL`. -/
def NsAllocationCallbacks.logged (cb : NsAllocationCallbacks q σ) :
    NsAllocationCallbacks q (σ × List (Call q)) where
  pUserData := cb.pUserData
  onMalloc := cb.onMalloc.map fun onMalloc sz u => logMalloc (fun sz => onMalloc sz u) sz
  onRealloc := cb.onRealloc.map fun onRealloc p sz u =>
    logRealloc (fun p sz => onRealloc p sz u) p sz
  onFree := cb.onFree.map fun onFree p u => logFree (fun p => onFree p u) p

theorem backingOf_logged {dflt B : Backing q σ} {cb : Option (NsAllocationCallbacks q σ)}
    (h : backingOf dflt cb = some B) :
    backingOf dflt.logged (cb.map NsAllocationCallbacks.logged) = some B.logged := by
  rcases cb with _ | ⟨u, _ | _, _ | _, _ | _⟩ <;> simp [backingOf] at h <;> subst h <;> rfl

/-! ## The log is invisible -/

section Erasure

variable {dflt : Backing q σ} {cb : Option (NsAllocationCallbacks q σ)} {W : LoggedWorld q σ}
  {p sz alignment : Word q}

/-- Forget the log of the world in an answer. -/
def eraseAnswer (r : Word q × LoggedWorld q σ) : Word q × World q σ := (r.1, r.2.erase)

theorem nsMalloc_logged :
    eraseAnswer (nsMalloc dflt.logged sz (cb.map NsAllocationCallbacks.logged) W)
      = nsMalloc dflt sz cb W.erase := by
  rcases cb with _ | ⟨u, _ | _, _, _⟩ <;> rfl

theorem nsRealloc_logged :
    eraseAnswer (nsRealloc dflt.logged p sz (cb.map NsAllocationCallbacks.logged) W)
      = nsRealloc dflt p sz cb W.erase := by
  rcases cb with _ | ⟨u, _, _ | _, _⟩ <;> rfl

theorem nsFree_logged :
    (nsFree dflt.logged p (cb.map NsAllocationCallbacks.logged) W).erase
      = nsFree dflt p cb W.erase := by
  unfold nsFree
  split
  · rfl
  · rcases cb with _ | ⟨u, _, _, _ | _⟩ <;> rfl

theorem nsAlignedMalloc_logged :
    eraseAnswer (nsAlignedMalloc dflt.logged sz alignment
      (cb.map NsAllocationCallbacks.logged) W)
      = nsAlignedMalloc dflt sz alignment cb W.erase := by
  unfold nsAlignedMalloc
  simp only []
  rw [← nsMalloc_logged]
  rcases nsMalloc dflt.logged _ (cb.map NsAllocationCallbacks.logged) W with ⟨base, W'⟩
  simp only [apply_ite eraseAnswer]
  rfl

theorem nsAlignedRealloc_logged :
    eraseAnswer (nsAlignedRealloc dflt.logged p sz alignment
      (cb.map NsAllocationCallbacks.logged) W)
      = nsAlignedRealloc dflt p sz alignment cb W.erase := by
  unfold nsAlignedRealloc
  simp only []
  rw [← nsRealloc_logged, ← nsAlignedMalloc_logged]
  rw [show W.erase.mem = W.mem from rfl]
  rcases nsRealloc dflt.logged _ _ (cb.map NsAllocationCallbacks.logged) W with ⟨base, W'⟩
  simp only [apply_ite eraseAnswer]
  rfl

theorem nsAlignedFree_logged :
    (nsAlignedFree dflt.logged p (cb.map NsAllocationCallbacks.logged) W).erase
      = nsAlignedFree dflt p cb W.erase := by
  unfold nsAlignedFree
  split
  · rfl
  · rw [nsFree_logged]
    rfl

variable [DecidableEq ι]

/-- Forget the log of a state of the client. -/
def State.erase (s : State q (σ × List (Call q)) ι) : State q σ ι := ⟨s.world.erase, s.live⟩

theorem book_logged {s : State q (σ × List (Call q)) ι} {h : ι} {r : Word q × LoggedWorld q σ} :
    (s.book h sz alignment r).map State.erase id
      = s.erase.book h sz alignment (eraseAnswer r) := by
  unfold State.book eraseAnswer
  simp only []
  split_ifs <;> rfl

/-- **A step with the log is a step without it.** -/
theorem step_logged (s : State q (σ × List (Call q)) ι) (op : Op q ι) :
    (step dflt.logged (cb.map NsAllocationCallbacks.logged) s op).map (Prod.map State.erase id)
      = step dflt cb s.erase op := by
  cases op with
  | malloc h sz alignment =>
    show Option.map _ (if (s.live h).isNone then _ else _) = if (s.live h).isNone then _ else _
    split_ifs
    · simp only [Option.map_some, book_logged, nsAlignedMalloc_logged]
      rfl
    · rfl
  | realloc h sz alignment =>
    show some (Prod.map State.erase id (s.book _ _ _ _)) = some _
    rw [book_logged, nsAlignedRealloc_logged]
    rfl
  | free h =>
    show some (State.erase _, true) = some _
    rw [State.erase, nsAlignedFree_logged]
    rfl
  | write h i b =>
    cases ha : s.live h with
    | none =>
      have ha' : s.erase.live h = none := ha
      simp [step, ha, ha']
    | some a =>
      have ha' : s.erase.live h = some a := ha
      simp only [step, ha, ha']
      split_ifs <;> rfl

/-- **Every run can be logged.** -/
theorem Run.logged {s t : State q σ ι} {tr : List (Op q ι × Bool)}
    {u : State q (σ × List (Call q)) ι} (hu : u.erase = s) (hrun : Run (Step dflt cb) s tr t) :
    ∃ v, Run (Step dflt.logged (cb.map NsAllocationCallbacks.logged)) u tr v ∧ v.erase = t := by
  let R : State q σ ι → State q (σ × List (Call q)) ι → Prop := fun s u => u.erase = s
  have hR : R s u := hu
  have hsim : ∀ {x u l y}, R x u → Step dflt cb x l y →
      ∃ v, Step dflt.logged (cb.map NsAllocationCallbacks.logged) u (id l) v ∧ R y v := by
    rintro _ u l y rfl hs
    have hstep : step dflt cb u.erase l.1 = some (y, l.2) := hs
    rw [← step_logged, Option.map_eq_some_iff] at hstep
    obtain ⟨⟨v, ok⟩, hv, heq⟩ := hstep
    have hok : ok = l.2 := congrArg Prod.snd heq
    subst hok
    exact ⟨v, hv, congrArg Prod.fst heq⟩
  obtain ⟨v, hv, ht⟩ := hrun.simulates hR hsim
  exact ⟨v, by simpa using hv, ht⟩

end Erasure

/-! ## The books -/

/-- **The books are in order**: the log is sound, and the names it leaves in use
are the bases of the live blocks. -/
structure Books (log : List (Call q)) (live : Set (Block q)) : Prop where
  sound : Sound (log.map Call.entry)
  nodup : (liveBases log).Nodup
  bases : ∀ p, p ∈ liveBases log ↔ ∃ b ∈ live, b.base = p
  distinct : ∀ b ∈ live, ∀ c ∈ live, b.base = c.base → b = c
  size_ne : ∀ b ∈ live, b.size ≠ 0

namespace Books

variable {log : List (Call q)} {live live' : Set (Block q)} {b : Block q} {sz p : Word q}
  {c : Call q}

theorem liveBases_snoc : liveBases (log ++ [c]) = Entry.post (liveBases log) c.entry := by
  simp [liveBases]

/-- The base of a live block is in use. -/
theorem base_mem (h : Books log live) (hb : b ∈ live) : b.base ∈ liveBases log :=
  (h.bases _).2 ⟨b, hb, rfl⟩

/-- **One call.**  It may bring the base of a live block, retire that block
(`old`), and hand out a new one beside the rest (`new`). -/
theorem snoc (h : Books log live) (old new : Option (Block q))
    (hold : ∀ b, old = some b → b ∈ live)
    (hin : ∀ k, c.entry.handed = some k → k ∈ liveBases log)
    (hret : c.entry.retired = old.map Block.base) (hiss : c.entry.issued = new.map Block.base)
    (hlive : live' = {b | new = some b ∨ b ∈ live ∧ old ≠ some b})
    (hsize : ∀ n, new = some n → n.size ≠ 0)
    (hapart : ∀ n, new = some n → ∀ b ∈ live, old ≠ some b → n.Apart b) :
    Books (log ++ [c]) live' := by
  subst hlive
  have hbase : ∀ b ∈ live, (c.entry.retired ≠ some b.base ↔ old ≠ some b) := by
    intro b hb
    rw [hret, not_iff_not]
    constructor
    · intro heq
      obtain ⟨o, ho, hob⟩ := Option.map_eq_some_iff.1 heq
      rw [ho, h.distinct o (hold o ho) b hb hob]
    · rintro rfl
      rfl
  -- the new block starts where none of the others does
  have hfresh : ∀ n, new = some n → ∀ b ∈ live, old ≠ some b → n.base ≠ b.base :=
    fun n hn b hb ho => (hapart n hn b hb ho).base_ne (hsize n hn) (h.size_ne b hb)
  refine ⟨?_, ?_, fun p => ?_, ?_, ?_⟩
  · rw [List.map_append]
    exact h.sound.snoc hin
  · rw [liveBases_snoc]
    refine Entry.nodup_post h.nodup fun i hi hmem => ?_
    rw [hiss] at hi
    obtain ⟨n, hn, rfl⟩ := Option.map_eq_some_iff.1 hi
    rw [h.nodup.mem_sdiff_iff, Option.mem_toList] at hmem
    obtain ⟨b, hb, hbn⟩ := (h.bases _).1 hmem.1
    rw [← hbn] at hmem
    exact hfresh n hn b hb ((hbase b hb).1 hmem.2) hbn.symm
  · rw [liveBases_snoc, Entry.mem_post h.nodup, hiss, h.bases, Option.map_eq_some_iff]
    constructor
    · rintro (⟨n, hn, rfl⟩ | ⟨⟨b, hb, rfl⟩, hret⟩)
      · exact ⟨n, Or.inl hn, rfl⟩
      · exact ⟨b, Or.inr ⟨hb, (hbase b hb).1 hret⟩, rfl⟩
    · rintro ⟨b, hb | ⟨hb, hold⟩, rfl⟩
      · exact Or.inl ⟨b, hb, rfl⟩
      · exact Or.inr ⟨⟨b, hb, rfl⟩, (hbase b hb).2 hold⟩
  · rintro b (hb | ⟨hb, hob⟩) c' (hc | ⟨hc, hoc⟩) heq
    · exact Option.some.inj (hb.symm.trans hc)
    · exact absurd heq (hfresh b hb c' hc hoc)
    · exact absurd heq.symm (hfresh c' hc b hb hob)
    · exact h.distinct b hb c' hc heq
  · rintro b (hb | ⟨hb, -⟩)
    · exact hsize b hb
    · exact h.size_ne b hb

theorem nil : Books ([] : List (Call q)) ∅ :=
  ⟨Sound.nil, List.nodup_nil, by simp [liveBases], by simp, by simp⟩

variable {m m' : Mem (8 * q)}

/-- A `malloc` keeps the books in order. -/
theorem granted (h : Books log live) (hsz : sz ≠ 0) (hgr : Granted sz p live live' m m') :
    Books (log ++ [.malloc sz p]) live' := by
  have hin : ∀ k, (Call.malloc sz p).entry.handed = some k → k ∈ liveBases log :=
    fun k hk => nomatch hk
  by_cases hp : p = 0
  · refine h.snoc none none (by simp) hin rfl (by simp [Call.entry, hp]) ?_ (by simp) (by simp)
    simp [hgr.refused hp]
  · refine h.snoc none (some ⟨p, sz⟩) (by simp) hin rfl (by simp [Call.entry_malloc hp]) ?_
      (by simpa using hsz) (by simpa using hgr.apart hp)
    ext b
    simp [hgr.granted hp, eq_comm]

/-- A `realloc` of a live block keeps the books in order. -/
theorem resized (h : Books log live) (hb : b ∈ live) (hsz : sz ≠ 0)
    (hre : Resized b sz p live live' m m') : Books (log ++ [.realloc b.base sz p]) live' := by
  have hin : ∀ k, (Call.realloc b.base sz p).entry.handed = some k → k ∈ liveBases log := by
    rintro k hk
    cases hk
    exact h.base_mem hb
  by_cases hp : p = 0
  · refine h.snoc none none (by simp) hin (by simp [Call.entry, Entry.retired, hp])
      (by simp [Call.entry, hp]) ?_ (by simp) (by simp)
    simp [(hre.refused hp).1]
  · refine h.snoc (some b) (some ⟨p, sz⟩) (by simpa using hb) hin
      (by simp [Call.entry_realloc hp, Entry.retired]) (by simp [Call.entry_realloc hp]) ?_
      (by simpa using hsz) ?_
    · ext c
      simp [hre.granted hp, eq_comm]
    · rintro n hn c hc hne
      cases hn
      exact hre.apart hp c ⟨hc, fun h => hne (by rw [h])⟩

/-- A `free` of a live block keeps the books in order. -/
theorem released (h : Books log live) (hb : b ∈ live) (hrel : Released b live live' m m') :
    Books (log ++ [.free b.base]) live' := by
  have hin : ∀ k, (Call.free b.base).entry.handed = some k → k ∈ liveBases log := by
    rintro k hk
    cases hk
    exact h.base_mem hb
  refine h.snoc (some b) none (by simpa using hb) hin rfl rfl ?_ (by simp) (by simp)
  ext c
  simp [hrel.released, eq_comm]

end Books

/-! ## The contract with the books -/

variable {B : Backing q σ}

/-- **The logged allocator keeps the contract**, with `Books` for its log and its blocks. -/
def Contract.logged (K : Contract B) : Contract B.logged where
  live := fun σ => K.live σ.1
  ok := fun W => K.ok W.erase ∧ Books W.priv.2 (K.live W.priv.1)
  frame := fun hW hm => ⟨K.frame hW.1 hm, hW.2⟩
  malloc := fun hW hsz =>
    have h := K.malloc hW.1 hsz
    ⟨⟨h.1, hW.2.granted hsz h.2⟩, h.2⟩
  realloc := fun hW hsz hold =>
    have h := K.realloc hW.1 hsz hold
    ⟨⟨h.1, hW.2.resized hold hsz h.2⟩, h.2⟩
  free := fun hW hold =>
    have h := K.free hW.1 hold
    ⟨⟨h.1, hW.2.released hold h.2⟩, h.2⟩

/-! ## The result -/

variable [DecidableEq ι] {dflt : Backing q σ} {cb : Option (NsAllocationCallbacks q σ)}
  {W : World q σ} {s : State q σ ι} {tr : List (Op q ι × Bool)}

/-- The base of the block behind the allocation of `h`, as the header has it. -/
def State.base (s : State q σ ι) (h : ι) : Word q :=
  match s.live h with
  | some a => (headerOf s.world.mem a).pUnaligned
  | none => 0

omit [DecidableEq ι] in
/-- **The headers find every live block**, and find it once. -/
theorem bijOn_liveBases {K : Contract B} {v : State q (σ × List (Call q)) ι}
    (inv : HeapInv K.logged v) :
    Set.BijOn v.erase.base {h | v.live h ≠ none} {p | p ∈ liveBases v.world.priv.2} := by
  have hbooks : Books v.world.priv.2 (K.live v.world.priv.1) := inv.ok.2
  have hown : K.live v.world.priv.1 = ownBlocks v := inv.own
  have hbase : ∀ {h a}, v.live h = some a →
      v.erase.base h = (headerOf v.world.mem a).pUnaligned := by
    intro h a ha
    rw [State.base, show v.erase.live h = some a from ha]
    rfl
  refine ⟨?_, ?_, ?_⟩
  · intro h hh
    obtain ⟨a, ha⟩ := Option.ne_none_iff_exists'.1 hh
    rw [hbase ha]
    exact hbooks.base_mem (inv.block_mem ha)
  · intro h hh h' hh' heq
    obtain ⟨a, ha⟩ := Option.ne_none_iff_exists'.1 hh
    obtain ⟨a', ha'⟩ := Option.ne_none_iff_exists'.1 hh'
    rw [hbase ha, hbase ha'] at heq
    exact inv.base_inj ha ha' heq
  · intro p hp
    obtain ⟨b, hb, rfl⟩ := (hbooks.bases p).1 hp
    rw [hown] at hb
    obtain ⟨h, a, ha, rfl⟩ := hb
    exact ⟨h, by simp [ha], hbase ha⟩

/-- **No leak, no double free, no foreign pointer.**  Write down the calls of the
backing allocator along any run of the client.  Every pointer that was handed to
`realloc` or `free` was the base of a block that was live at that moment; every
base was retired once for each time it was handed out, except that the live ones
have not been retired yet; and the headers put the live allocations in bijection
with the live blocks, so that a client that holds nothing has leaked nothing. -/
theorem alignedHeap_ledger (hB : backingOf dflt cb = some B) (K : Contract B) (hok : K.ok W)
    (hnone : K.live W.priv = ∅) (hrun : Run (Step dflt cb) (State.initial W) tr s) :
    ∃ log : List (Call q),
      Run (Step dflt.logged (cb.map NsAllocationCallbacks.logged))
        (State.initial (W.withLog [])) tr ⟨s.world.withLog log, s.live⟩ ∧
      (∀ pre c post p, log = pre ++ c :: post → c.entry.handed = some p → p ∈ liveBases pre) ∧
      (∀ p, issues p (log.map Call.entry)
        = retirements p (log.map Call.entry) + if p ∈ liveBases log then 1 else 0) ∧
      Set.BijOn s.base {h | s.live h ≠ none} {p | p ∈ liveBases log} ∧
      ((∀ h, s.live h = none) → liveBases log = []) := by
  obtain ⟨v, hv, rfl⟩ :=
    Run.logged (show (State.initial (W.withLog [])).erase = State.initial W from rfl) hrun
  have hinit : K.logged.ok (W.withLog []) := ⟨hok, by
    show Books [] (K.live W.priv)
    rw [hnone]
    exact Books.nil⟩
  have inv := Run.heapInv (backingOf_logged hB) (heapInv_initial hinit hnone) hv
  have hbooks : Books v.world.priv.2 (K.live v.world.priv.1) := inv.ok.2
  have hbij := bijOn_liveBases inv
  refine ⟨v.world.priv.2, hv, ?_, fun p => ?_, hbij, fun hdead => ?_⟩
  · intro pre c post p hsplit hp
    refine hbooks.sound _ c.entry (post.map Call.entry) ?_ p hp
    rw [hsplit, List.map_append, List.map_cons]
  · rw [hbooks.sound.balance, ← liveBases, hbooks.nodup.count]
  · rw [List.eq_nil_iff_forall_not_mem]
    intro p hp
    obtain ⟨h, hh, -⟩ := hbij.surjOn hp
    exact hh (hdead h)

theorem alignedHeap_ledger_sample : ∃ log : List (Call 1),
    (∀ p, issues p (log.map Call.entry)
      = retirements p (log.map Call.entry) + if p ∈ liveBases log then 1 else 0) ∧
      Set.BijOn sample.base {h | sample.live h ≠ none} {p | p ∈ liveBases log} := by
  obtain ⟨log, -, -, hbalance, hbij, -⟩ := alignedHeap_ledger rfl movingArena_contract
    (Arena.fresh_ok Nat.one_pos) Arena.fresh_live sample_run
  exact ⟨log, hbalance, hbij⟩

end Refcode.Alloc
