import Recompiler.Proofs.IR.Metering
import Recompiler.Proofs.Interp.Exits
import Recompiler.Proofs.Jit.Invalidation
import Recompiler.Proofs.X64.Exits

/-!
One numbering of exits. Both backends number the exits of a fragment by the list of its constant
targets, the cache keeps that list with the code, and a link of an exit leads to the target with its
number.
-/
namespace Recompiler.Jit

open IR

variable {σ : Type} {cpu : Cpu σ} {j j' : Jit} {addr : UInt32} {f : Fragment}

/-! ### The exits of cached blocks -/

namespace Cache

variable (c : Cache)

/-- The constant targets of the block at an address. -/
def exits? (addr : UInt32) : Option (List UInt32) := (c.get? addr).map Block.exits

/-- A change that keeps the exits is not seen by them. -/
theorem exits?_modify {g : Block → Block} (hg : ∀ b, (g b).addr = b.addr)
    (hexits : ∀ b, (g b).exits = b.exits) (addr x : UInt32) :
    (c.modify addr g).exits? x = c.exits? x := by
  unfold exits?
  rw [c.get?_modify hg]
  by_cases hx : x = addr
  · rw [if_pos hx]
    cases c.get? x <;> simp [hexits]
  · rw [if_neg hx]

theorem exits?_dropIncoming (dst : UInt32) (e : Edge) (x : UInt32) :
    (c.dropIncoming dst e).exits? x = c.exits? x := by
  unfold dropIncoming
  apply exits?_modify <;> exact fun _ => rfl

theorem exits?_dropLink (e : Edge) (dst x : UInt32) :
    (c.dropLink e dst).exits? x = c.exits? x := by
  unfold dropLink
  apply exits?_modify
  all_goals
    intro b
    split <;> rfl

theorem exits?_foldl {α : Type} {op : Cache → α → Cache} {x : UInt32}
    (hop : ∀ c a, (op c a).exits? x = c.exits? x) (l : List α) (c : Cache) :
    (l.foldl op c).exits? x = c.exits? x := by
  induction l generalizing c with
  | nil => rfl
  | cons a l ih => rw [List.foldl_cons, ih, hop]

/-- A block without code still has its exits. -/
theorem exits?_invalidate (a x : UInt32) : (c.invalidate a).1.exits? x = c.exits? x := by
  cases h : c.get? a with
  | none => rw [invalidate_of_absent h]
  | some b =>
    rw [invalidate_eq h, exits?_foldl fun c o => exits?_dropIncoming _ _ _ _,
      exits?_foldl fun c e => exits?_dropLink _ _ _ _]
    unfold exits?
    rw [get?_cutAt]
    by_cases hx : x = a
    · rw [if_pos hx]
      cases c.get? x <;> rfl
    · rw [if_neg hx]

theorem exits?_remove (a x : UInt32) :
    (c.remove a).1.exits? x = if x = a then none else c.exits? x := by
  rw [← exits?_invalidate c a, remove_eq]
  unfold exits?
  rw [get?_forget]
  by_cases hx : x = a
  · rw [if_pos hx, if_pos hx]
    rfl
  · rw [if_neg hx, if_neg hx]

theorem exits?_connect (e : Edge) (old : Option UInt32) (dst x : UInt32) :
    (c.connect e old dst).exits? x = c.exits? x := by
  unfold connect
  have hset : ∀ x, (c.modify e.source (·.setLink e.slot (some dst))).exits? x = c.exits? x :=
    c.exits?_modify (g := (·.setLink e.slot (some dst))) (fun _ => rfl) (fun _ => rfl) e.source
  cases old with
  | none => rw [exits?_modify, hset] <;> exact fun _ => rfl
  | some old => rw [exits?_modify, exits?_dropIncoming, hset] <;> exact fun _ => rfl

theorem exits?_link (source : UInt32) (slot : Nat) (dst x : UInt32) :
    (c.link source slot dst).exits? x = c.exits? x := by
  obtain h | ⟨old, -, h⟩ := c.link_cases source slot dst
  · rw [h]
  · rw [h, exits?_connect]

theorem exits?_insert {b : Block} {c' : Cache} (h : c.insert b = .ok c') (x : UInt32) :
    c'.exits? x = if x = b.addr then some b.exits else c.exits? x := by
  unfold exits?
  rw [get?_insert c h]
  by_cases hx : x = b.addr
  · rw [if_pos hx, if_pos hx]
    rfl
  · rw [if_neg hx, if_neg hx]

variable {c} in
theorem exits?_isSome_of_lookup {x : UInt32} {code : Nat} (h : c.lookup x = some code) :
    ∃ exits, c.exits? x = some exits := by
  obtain ⟨b, hb, -⟩ := c.lookup_eq_some_iff.mp h
  refine ⟨b.exits, ?_⟩
  unfold exits?
  rw [hb]
  rfl

variable {c} in
theorem exits?_isSome_of_target? {e : Edge} {dst : UInt32} (h : c.target? e = some dst) :
    ∃ exits, c.exits? e.source = some exits := by
  obtain ⟨b, hb, -⟩ := c.target?_eq_some_iff.mp h
  refine ⟨b.exits, ?_⟩
  unfold exits?
  rw [hb]
  rfl

end Cache

/-! ### The invariant -/

/-- Links lead to the targets with their numbers, and each block is kept with the exits of the
fragment that its code was made of. -/
structure Keyed (cpu : Cpu σ) (j : Jit) : Prop where
  target : ∀ e dst exits, j.cache.target? e = some dst → j.cache.exits? e.source = some exits →
    exits[e.slot]? = some dst
  live : ∀ x code, j.cache.lookup x = some code → ∃ f i, Lifted cpu x f ∧
    j.cache.exits? x = some (Exit.statics f) ∧ j.backend.imageOf x f = .ok i ∧
    j.backend.image? code = some i

theorem keyed_of_empty (h : j.cache = {}) : Keyed cpu j where
  target e dst exits htarget := by
    rw [h] at htarget
    cases htarget
  live x code hcode := by
    rw [h] at hcode
    cases hcode

/-- What keeps the code and the exits of the blocks that it leaves. -/
theorem Keyed.kept (h : Keyed cpu j)
    (htarget : ∀ e dst, j'.cache.target? e = some dst → j.cache.target? e = some dst)
    (hexits : ∀ x exits, j'.cache.exits? x = some exits → j.cache.exits? x = some exits)
    (hlookup : ∀ x code, j'.cache.lookup x = some code → j.cache.lookup x = some code ∧
      j'.backend.image? code = j.backend.image? code)
    (himageOf : j'.backend.imageOf = j.backend.imageOf) : Keyed cpu j' where
  target e dst exits hdst he := h.target e dst exits (htarget e dst hdst) (hexits _ _ he)
  live x code hcode := by
    obtain ⟨hold, himage⟩ := hlookup x code hcode
    obtain ⟨f, i, hf, hstatics, hi, hi'⟩ := h.live x code hold
    obtain ⟨exits, hx⟩ := Cache.exits?_isSome_of_lookup hcode
    have hsame := hexits x exits hx
    rw [hstatics] at hsame
    cases hsame
    rw [himageOf, himage]
    exact ⟨f, i, hf, hx, hi, hi'⟩

/-- No two blocks share a handle. -/
theorem InStep.code_ne (h : InStep cpu j) {x y : UInt32} {code : Nat}
    (hx : j.cache.lookup x = some code) (hne : x ≠ y) : j.cache.lookup y ≠ some code := by
  intro hy
  obtain ⟨i, hi, haddr⟩ := h.guestAddr_eq hx
  obtain ⟨i', hi', haddr'⟩ := h.guestAddr_eq hy
  rw [hi] at hi'
  cases hi'
  exact hne (haddr.symm.trans haddr')

theorem imageOf_freeBlock (j : Jit) (a : UInt32) :
    (j.freeBlock a).backend.imageOf = j.backend.imageOf := by
  unfold freeBlock
  split
  · exact Backend.imageOf_free _ _
  · rfl

theorem imageOf_dropCode (j : Jit) (a : UInt32) :
    (j.dropCode a).backend.imageOf = j.backend.imageOf := by
  unfold dropCode
  split
  · exact Backend.imageOf_free _ _
  · rfl

theorem image?_dropCode (j : Jit) (a : UInt32) (code : Nat) :
    (j.dropCode a).backend.image? code =
      if j.cache.lookup a = some code then none else j.backend.image? code := by
  rw [← Cache.snd_invalidate]
  unfold dropCode
  split
  case h_1 n hdrop =>
    rw [hdrop, Backend.image?_free]
    simp only [Option.some.injEq, eq_comm]
  case h_2 hdrop =>
    rw [hdrop, if_neg]
    exact nofun

theorem Keyed.freeBlock (h : Keyed cpu j) (hstep : InStep cpu j) (a : UInt32) :
    Keyed cpu (j.freeBlock a) := by
  apply h.kept _ _ _ (imageOf_freeBlock j a)
  all_goals rw [cache_freeBlock]
  · intro e dst he
    rw [Cache.remove_eq, Cache.target?_forget, Cache.target?_invalidate] at he
    split_ifs at he
    exact he
  · intro x exits hx
    rw [Cache.exits?_remove] at hx
    split_ifs at hx
    exact hx
  · intro x code hx
    rw [Cache.lookup_remove] at hx
    split_ifs at hx with hne
    rw [image?_freeBlock, if_neg (hstep.code_ne hx hne)]
    exact ⟨hx, rfl⟩

theorem Keyed.dropCode (h : Keyed cpu j) (hstep : InStep cpu j) (a : UInt32) :
    Keyed cpu (j.dropCode a) := by
  apply h.kept _ _ _ (imageOf_dropCode j a)
  all_goals rw [cache_dropCode]
  · intro e dst he
    rw [Cache.target?_invalidate] at he
    split_ifs at he
    exact he
  · intro x exits hx
    rw [Cache.exits?_invalidate] at hx
    exact hx
  · intro x code hx
    rw [Cache.lookup_invalidate] at hx
    split_ifs at hx with hne
    rw [image?_dropCode, if_neg (hstep.code_ne hx hne)]
    exact ⟨hx, rfl⟩

/-- An exit is linked to its constant target only. -/
theorem Keyed.linkExit (h : Keyed cpu j) (source : UInt32) (slot : Nat) (dst : UInt32) :
    Keyed cpu (j.linkExit source slot dst) := by
  unfold Jit.linkExit
  split
  case isFalse => exact h
  case isTrue hexit =>
    obtain ⟨b, hb, hexit⟩ := Option.bind_eq_some_iff.mp hexit
    have hsource : j.cache.exits? source = some b.exits := by
      unfold Cache.exits?
      rw [hb]
      rfl
    constructor
    · intro e dst' exits htarget hexits
      change (j.cache.link source slot dst).exits? e.source = _ at hexits
      change (j.cache.link source slot dst).target? e = _ at htarget
      rw [Cache.exits?_link] at hexits
      obtain hsame | ⟨old, hconnects, hsame⟩ := j.cache.link_cases source slot dst
      · rw [hsame] at htarget
        exact h.target e dst' exits htarget hexits
      · rw [hsame, hconnects.target?_connect] at htarget
        split at htarget
        case isTrue he =>
          cases htarget
          subst he
          rw [hsource] at hexits
          cases hexits
          exact hexit
        case isFalse => exact h.target e dst' exits htarget hexits
    · intro x code hcode
      change (j.cache.link source slot dst).lookup x = _ at hcode
      change ∃ f i, Lifted cpu x f ∧ (j.cache.link source slot dst).exits? x = _ ∧ _
      rw [Cache.lookup_link] at hcode
      rw [Cache.exits?_link]
      exact h.live x code hcode

theorem Keyed.of_same (h : Keyed cpu j) (hcache : j'.cache = j.cache)
    (hbackend : j'.backend = j.backend) : Keyed cpu j' := by
  apply h.kept <;> simp only [hcache, hbackend, imp_self, implies_true, and_true]

theorem Keyed.slowed (h : Keyed cpu j) (a : UInt32) : Keyed cpu (j.slowed a) := by
  have hlookup := j.cache.lookup_modify (g := ({ · with fast := false })) (fun _ => rfl)
    (fun _ => rfl) a
  apply h.kept
  · intro e dst he
    rwa [Jit.slowed, j.cache.target?_modify (g := ({ · with fast := false })) (fun _ => rfl)
      (fun _ => rfl)] at he
  · intro x exits hx
    rwa [Jit.slowed, j.cache.exits?_modify (g := ({ · with fast := false })) (fun _ => rfl)
      (fun _ => rfl)] at hx
  · intro x code hx
    rw [Jit.slowed, hlookup] at hx
    exact ⟨hx, rfl⟩
  · rfl

theorem Keyed.handleException (h : Keyed cpu j) (hstep : InStep cpu j) {host : Nat} {hit : Bool}
    (hj : j.handleException host = .ok (j', hit)) : Keyed cpu j' := by
  obtain ⟨-, rfl⟩ | ⟨a, b, -, -, -, -, rfl⟩ := handleException_cases hj
  · exact h
  · exact (h.slowed a).dropCode (hstep.slowed a) a

/-! ### Compilation -/

/-- Assembly takes a free handle. -/
theorem Keyed.assembled (h : Keyed cpu j) {b' : Backend} {r : Assembling Nat}
    (hb : j.backend.Assembles addr f b' r) : Keyed cpu { j with backend := b' } := by
  refine h.kept (fun _ _ he => he) (fun _ _ hx => hx) ?_ hb.imageOf_eq
  intro x code hcode
  refine ⟨hcode, ?_⟩
  change b'.image? code = _
  cases r with
  | error e => rw [hb.keeps e rfl]
  | ok n =>
    obtain ⟨i, -, hfree, hstores⟩ := hb.stores n rfl
    obtain ⟨f', i', -, -, -, himage⟩ := h.live x code hcode
    have hne : code ≠ n := by
      intro heq
      rw [heq, hfree] at himage
      cases himage
    rw [hstores, if_neg hne]

theorem Keyed.assemble (h : Keyed cpu j) (hstep : InStep cpu j) {r : Except Error Nat}
    (hr : j.assemble addr f = .ok (j', r)) : Keyed cpu j' := by
  have hfirst := h.assembled (Backend.assembles hstep.packed addr f)
  unfold Jit.assemble at hr
  split at hr
  case h_1 b' code hb =>
    rw [hb] at hfirst
    cases hr
    exact hfirst
  case h_2 => cases hr
  case h_3 b' hb =>
    simp only at hr
    split at hr
    · cases hr
      exact keyed_of_empty rfl
    · cases hr
    · cases hr
      exact keyed_of_empty rfl
  case h_4 b' e _ hb =>
    rw [hb] at hfirst
    cases hr
    exact hfirst

/-- A new block comes with the exits of its fragment. -/
theorem Keyed.install (h : Keyed cpu j) {code : Nat} (hpending : Pending cpu j addr f code)
    (hf : Lifted cpu addr f) {size : Nat} {fast : Bool}
    (hj : j.install addr size code (Exit.statics f) fast = .ok j') : Keyed cpu j' := by
  obtain ⟨hostAddr, hostSize, hc, hbackend⟩ := install_eq_ok hj
  have hlookup := Cache.lookup_insert hc
  have hexits := Cache.exits?_insert j.cache hc
  change ∀ x, j'.cache.lookup x = if x = addr then some code else j.cache.lookup x at hlookup
  change ∀ x, j'.cache.exits? x = if x = addr then some (Exit.statics f) else j.cache.exits? x
    at hexits
  obtain ⟨⟨-, -, habsent⟩, -⟩ := j.cache.insert_eq_ok_iff.mp hc
  change j.cache.get? addr = none at habsent
  constructor
  · intro e dst exits htarget he
    rw [Cache.target?_insert hc] at htarget
    -- the new block is not linked yet
    have hne : e.source ≠ addr := by
      intro heq
      obtain ⟨exits', hexits'⟩ := Cache.exits?_isSome_of_target? htarget
      unfold Cache.exits? at hexits'
      rw [heq, habsent] at hexits'
      cases hexits'
    rw [hexits, if_neg hne] at he
    exact h.target e dst exits htarget he
  · intro x n hn
    rw [hbackend]
    rw [hlookup] at hn
    rw [hexits]
    by_cases hx : x = addr
    · rw [if_pos hx] at hn
      cases hn
      rw [hx, if_pos rfl]
      obtain ⟨i, hi, himage⟩ := hpending.image
      exact ⟨f, i, hf, rfl, hi, himage⟩
    · rw [if_neg hx] at hn
      rw [if_neg hx]
      exact h.live x n hn

theorem Keyed.compile (h : Keyed cpu j) (hstep : InStep cpu j) {w : World σ} {r : Except Error Nat}
    (hj : j.compile cpu w addr = .ok (j', r)) : Keyed cpu j' := by
  have hfreed := h.freeBlock hstep addr
  cases compile_cases hj with
  | unwritten hcache hbackend => exact hfreed.of_same hcache hbackend
  | refused hprepares hassemble =>
    have hready := hfreed.of_same hprepares.same.1 hprepares.same.2
    exact hready.assemble (hstep.prepared hprepares) hassemble
  | installed hprepares hassemble hinstall =>
    have hready := hfreed.of_same hprepares.same.1 hprepares.same.2
    have hstepReady := hstep.prepared hprepares
    have hpending := (hstepReady.assemble hassemble).2 _ rfl
    exact (hready.assemble hstepReady hassemble).install hpending hprepares.lifted hinstall

/-! ### Requests -/

variable {cs : List (Call σ)}

theorem InStep.change (h : InStep cpu j) (hj : Change cpu j cs j') : InStep cpu j' := by
  cases hj with
  | compile hj => exact (h.compile hj).1
  | linkExit source slot dst => exact h.linkExit source slot dst
  | dropCode a => exact h.dropCode a
  | handleException hj => exact h.handleException hj

theorem Keyed.change (h : Keyed cpu j) (hstep : InStep cpu j) (hj : Change cpu j cs j') :
    Keyed cpu j' := by
  cases hj with
  | compile hj => exact h.compile hstep hj
  | linkExit source slot dst => exact h.linkExit source slot dst
  | dropCode a => exact h.dropCode hstep a
  | handleException hj => exact h.handleException hstep hj

theorem Keyed.evolves (h : Keyed cpu j) (hstep : InStep cpu j) (hj : Evolves cpu j cs j') :
    Keyed cpu j' := by
  have hboth : InStep cpu j' ∧ Keyed cpu j' := by
    induction hj with
    | refl => exact ⟨hstep, h⟩
    | tail _ hchange ih => exact ⟨ih.1.change hchange, ih.2.change ih.1 hchange⟩
  exact hboth.2

theorem Keyed.invalidateRange (h : Keyed cpu j) (hstep : InStep cpu j) (addr len : UInt32) :
    Keyed cpu (j.invalidateRange addr len) := by
  have hfree : ∀ (l : List UInt32) (j : Jit), Keyed cpu j → InStep cpu j →
      Keyed cpu (l.foldl Jit.freeBlock j) := by
    intro l
    induction l with
    | nil => exact fun _ h _ => h
    | cons a l ih => exact fun j h hstep => ih _ (h.freeBlock hstep a) (hstep.freeBlock a)
  exact hfree _ j h hstep

theorem Keyed.serve (h : Keyed cpu j) (hstep : InStep cpu j) {r : Request σ}
    (hr : r.serve cpu j = .ok j') : Keyed cpu j' := by
  cases r with
  | invalidateRange addr len =>
    cases hr
    exact h.invalidateRange hstep addr len
  | freeBlocks =>
    cases hr
    exact keyed_of_empty rfl
  | run | compile | invalidateBlocks | handleException =>
    exact h.evolves hstep (evolves_serve rfl hr)

theorem Keyed.serveAll (h : Keyed cpu j) (hstep : InStep cpu j) (rs : List (Request σ))
    (hrs : rs.foldlM (Request.serve cpu) j = .ok j') : Keyed cpu j' := by
  induction rs generalizing j with
  | nil =>
    cases hrs
    exact h
  | cons r rs ih =>
    rw [List.foldlM_cons] at hrs
    obtain ⟨j₁, hr, hrs⟩ := Interp.bind_eq_ok hrs
    exact ih (h.serve hstep hr) (hstep.serve hr) hrs

/-! ### Both backends and the cache -/

/-- Register code that was made of a fragment leaves by numbers, wherever it is kept. -/
theorem numbered_execute {g : Guest σ} {b b' c : Interp.Backend} {handle : Nat}
    (haddressed : Interp.Addressed f) (h : b.assemble addr f = (b', .ok handle))
    (hkept : c.stored? handle = b'.stored? handle) (fuel : Nat) (w : World σ) :
    Interp.Numbered g f c.offsets (c.execute g fuel handle w) := by
  unfold Interp.Backend.assemble at h
  cases hcode : Interp.Code.ofFragment addr f with
  | error e =>
    rw [hcode] at h
    cases h
  | ok code =>
    rw [hcode] at h
    obtain ⟨b₁, n, hstore, -, hstored⟩ := b.store_spec code
    simp only [hstore] at h
    cases h
    rw [hstored, if_pos rfl] at hkept
    unfold Interp.Backend.execute Interp.Backend.stored
    rw [hkept]
    exact Interp.numbered_run hcode haddressed fuel 0 _

/-- The exits of a fragment whose branches go to blocks or words have the same numbers everywhere.
Its register code finds the number of each exit that it takes, and leaves with the number of the pc.
Its machine code leaves for each constant target with the number of that target, which is not the
one of computed targets. After any requests to a new recompiler, each runnable block has the exits
of the fragment that its code was made of, and a link of any block leads to the target with its
number. -/
theorem exits_numbered (cpu : Cpu σ) (haddressed : Interp.Addressed f) (addr : UInt32) :
    (∀ (g : Guest σ) (b b' c : Interp.Backend) (handle : Nat),
      b.assemble addr f = (b', .ok handle) → c.stored? handle = b'.stored? handle →
      ∀ (fuel : Nat) (w : World σ),
        (∀ a, c.execute g fuel handle w = .error (.notStaticExit a) → g.Fails (.notStaticExit a)) ∧
        ∀ slot w', c.execute g fuel handle w = .ok (.static slot, w') →
          ∃ a, (Exit.statics f)[slot]? = some a ∧
            (0 ≤ c.offsets.pc → c.offsets.pc + 4 ≤ w'.ctx.size → w'.get32 c.offsets.pc = a)) ∧
    (∀ (b b' : X64.Backend) (handle : Nat), b.assemble addr f = (b', .ok handle) →
      ∀ i ∈ f.allInstrs, ∀ a, Exit.address? f i = some a →
        ∃ (c : X64.Lowering) (slot : Nat) (lines : X64.Assembly) (pos : Nat),
        X64.Lowering.ofFragment b.offsets f = .ok c ∧
        (Exit.statics f)[slot]? = some a ∧ slot < X64.dynamicExit.toNat ∧
        c.instr i = .ok lines ∧ c.LeavesBy lines a slot ∧
        b.used ≤ pos ∧
          pos + (X64.Instruction.movImm X64.tmp0 slot.toUInt64).bytes.length ≤ b'.used ∧
        b'.buffer.view pos (pos + (X64.Instruction.movImm X64.tmp0 slot.toUInt64).bytes.length) =
          (X64.Instruction.movImm X64.tmp0 slot.toUInt64).bytes) ∧
    ∀ (config : Config) (backend : Backend) (files : Files), (∀ code, backend.image? code = none) →
      ∀ (rs : List (Request σ)) (j : Jit),
        rs.foldlM (Request.serve cpu) (ofConfig config backend files) = .ok j →
        ∀ x block, j.cache.get? x = some block →
          (∀ (slot : Nat) (dst : UInt32), block.links[slot]? = some (some dst) →
            block.exits[slot]? = some dst) ∧
          ∀ code, block.code = some code → ∃ f i, Lifted cpu x f ∧ block.exits = Exit.statics f ∧
            j.backend.imageOf x f = .ok i ∧ j.backend.image? code = some i := by
  refine ⟨?_, ?_, ?_⟩
  · intro g b b' c handle h hkept fuel w
    have hnumbered := numbered_execute (g := g) haddressed h hkept fuel w
    constructor
    · intro a hfault
      rw [hfault] at hnumbered
      exact hnumbered a rfl
    · intro slot w' hleaves
      rw [hleaves] at hnumbered
      obtain ⟨a, w₀, hget, rfl⟩ := hnumbered slot rfl
      refine ⟨a, hget, fun hpc hle => ?_⟩
      rw [World.set32, Context.size_set32] at hle
      exact Context.get32_set32_self hpc hle a
  · intro b b' handle h i hi a ha
    exact X64.Backend.emits_exit h hi ha
  · intro config backend files hbackend rs j hrs x block hblock
    have hstart : InStep cpu (ofConfig config backend files) :=
      inStep_empty rfl (Backend.packed_of_free hbackend) hbackend
    have hkeyed : Keyed cpu j := (keyed_of_empty rfl).serveAll hstart rs hrs
    have hexits : j.cache.exits? x = some block.exits := by
      unfold Cache.exits?
      rw [hblock]
      rfl
    constructor
    · intro slot dst hlink
      have htarget : j.cache.target? ⟨x, slot⟩ = some dst :=
        j.cache.target?_eq_some_iff.mpr ⟨block, hblock, hlink⟩
      exact hkeyed.target ⟨x, slot⟩ dst _ htarget hexits
    · intro code hcode
      obtain ⟨f, i, hf, hstatics, hi, himage⟩ :=
        hkeyed.live x code (j.cache.lookup_eq_some_iff.mpr ⟨block, hblock, hcode⟩)
      rw [hexits] at hstatics
      exact ⟨f, i, hf, Option.some.inj hstatics, hi, himage⟩

theorem addressed_hop : Interp.Addressed X64.Backend.hop := by
  intro i hi v hv
  have hinstrs : X64.Backend.hop.allInstrs = [⟨0⟩, ⟨1⟩] := by decide
  rw [hinstrs] at hi
  simp only [List.mem_cons, List.not_mem_nil, or_false] at hi
  obtain rfl | rfl := hi
  · cases hv
    trivial
  · cases hv
    trivial

/-- Two blocks run, and the first one is linked to the second one. -/
def chained : List (Request Unit) := [.run 60 ⟨Array.replicate 16 0, ()⟩]

theorem exits_numbered_chained :
    (∃ c : Interp.Backend, ({ offsets := forward.offsets } : Interp.Backend).assemble 0
      X64.Backend.hop =
        (c, .ok 0) ∧ ∃ w', c.execute forward.guest 3 0 ⟨Array.replicate 16 0, ()⟩ =
          .ok (.static 0, w') ∧ w'.get32 0 = 0x100) ∧
    (∃ b', (X64.Backend.ofCapacity ⟨0, 4, 8, 12⟩ 4096).assemble 0 X64.Backend.hop = (b', .ok 0) ∧
      ∃ slot pos : Nat, (Exit.statics X64.Backend.hop)[slot]? = some 0x100 ∧
        b'.buffer.view pos (pos + (X64.Instruction.movImm X64.tmp0 slot.toUInt64).bytes.length) =
          (X64.Instruction.movImm X64.tmp0 slot.toUInt64).bytes) ∧
    ∃ j block, chained.foldlM (Request.serve forward)
        (ofConfig {} (.interp { offsets := forward.offsets }) {}) = .ok j ∧
      j.cache.get? 0 = some block ∧ block.links[0]? = some (some 4) ∧ block.exits[0]? = some 4 := by
  obtain ⟨hinterp, hmachine, hjit⟩ := exits_numbered forward addressed_hop 0
  refine ⟨?_, ?_, ?_⟩
  · let b : Interp.Backend := { offsets := forward.offsets }
    have hok : (b.assemble 0 X64.Backend.hop).2.toOption.map (· == 0) = some true := by cbv
    have hrun : ((b.assemble 0 X64.Backend.hop).1.execute forward.guest 3 0
        ⟨Array.replicate 16 0, ()⟩).toOption.map (fun p => (p.1, p.2.ctx.size)) =
          some (.static 0, 16) := by cbv
    obtain ⟨n, hn, hzero⟩ := Interp.eq_ok_of_toOption hok
    obtain rfl : n = 0 := by simpa using hzero
    obtain ⟨⟨exit, w'⟩, hexecute, hleft⟩ := Interp.eq_ok_of_toOption hrun
    obtain ⟨hexit, hsize⟩ := Prod.mk.inj hleft
    obtain rfl : exit = .static 0 := hexit
    have hassemble : b.assemble 0 X64.Backend.hop = ((b.assemble 0 X64.Backend.hop).1, .ok 0) := by
      rw [← hn]
    obtain ⟨a, hget, hpc⟩ :=
      (hinterp forward.guest b _ _ 0 hassemble rfl 3 ⟨Array.replicate 16 0, ()⟩).2 0 w' hexecute
    have ha : a = 0x100 := by
      have hstatics : (Exit.statics X64.Backend.hop)[0]? = some 0x100 := by decide
      exact Option.some.inj (hget.symm.trans hstatics)
    have hsize : w'.ctx.size = 16 := hsize
    refine ⟨_, hassemble, w', hexecute, ?_⟩
    have hoffset : (b.assemble 0 X64.Backend.hop).1.offsets.pc = 0 := by cbv
    rw [hoffset, hsize] at hpc
    rw [← ha]
    exact hpc (by decide) (by decide)
  · have hok : ((X64.Backend.ofCapacity ⟨0, 4, 8, 12⟩ 4096).assemble 0
        X64.Backend.hop).2.toOption.map (· == 0) = some true := by decide +kernel
    obtain ⟨n, hn, hzero⟩ := Interp.eq_ok_of_toOption hok
    obtain rfl : n = 0 := by simpa using hzero
    have hassemble : (X64.Backend.ofCapacity ⟨0, 4, 8, 12⟩ 4096).assemble 0 X64.Backend.hop =
        (((X64.Backend.ofCapacity ⟨0, 4, 8, 12⟩ 4096).assemble 0 X64.Backend.hop).1, .ok 0) := by
      rw [← hn]
    obtain ⟨-, slot, -, pos, -, hget, -, -, -, -, -, hbytes⟩ :=
      hmachine _ _ 0 hassemble ⟨1⟩ (by decide) 0x100 (by decide)
    exact ⟨_, hassemble, slot, pos, hget, hbytes⟩
  · have hrun : (chained.foldlM (Request.serve forward)
        (ofConfig {} (.interp { offsets := forward.offsets }) {})).toOption.map
          (fun j => (j.cache.get? 0).map Block.links) = some (some [some 4]) := by cbv
    obtain ⟨j, hj, hlinks⟩ := Interp.eq_ok_of_toOption hrun
    obtain ⟨block, hblock, hlinks⟩ := Option.map_eq_some_iff.mp hlinks
    have hlink : block.links[0]? = some (some 4) := by
      rw [hlinks]
      rfl
    have hexit := (hjit {} _ {} (fun _ => rfl) chained j hj 0 block hblock).1 0 4 hlink
    exact ⟨j, block, hj, hblock, hlink, hexit⟩

end Recompiler.Jit
