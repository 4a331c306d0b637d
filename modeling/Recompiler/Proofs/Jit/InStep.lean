import Recompiler.Proofs.Jit.Compiling
import Recompiler.Proofs.Jit.Images
import Recompiler.Proofs.Jit.Links

/-!
The cache and the backend in step: the runnable blocks of the cache and the live handles of the
backend correspond one to one, and the code behind a handle was made for the address of its block.
Each request keeps this, also where compilation fails or drops everything half-way. Whenever a block
runs, its handle is live and its code was made for the pc.
-/
namespace Recompiler.Jit

open IR Pass

variable {σ : Type} {cpu : Cpu σ} {j j' : Jit} {addr : UInt32} {code : Nat} {f : Fragment}

/-! ### Addresses in the cache -/

namespace Cache

variable {c : Cache}

theorem addrs_modify {g : Block → Block} (hg : ∀ b, (g b).addr = b.addr) (x : UInt32) :
    (c.modify x g).addrs = c.addrs := by
  unfold addrs modify
  rw [List.map_map]
  refine List.map_congr_left fun b _ => ?_
  simp only [Function.comp_apply]
  split
  · exact hg b
  · rfl

theorem addrs_foldl {α : Type} {op : Cache → α → Cache} (h : ∀ c a, (op c a).addrs = c.addrs)
    (l : List α) : (l.foldl op c).addrs = c.addrs := by
  induction l generalizing c with
  | nil => rfl
  | cons a l ih => rw [List.foldl_cons, ih, h]

theorem addrs_dropLink (e : Edge) (dst : UInt32) : (c.dropLink e dst).addrs = c.addrs := by
  refine addrs_modify (fun b => ?_) e.source
  split <;> rfl

theorem addrs_dropIncoming (dst : UInt32) (e : Edge) : (c.dropIncoming dst e).addrs = c.addrs := by
  refine addrs_modify ?_ dst
  exact fun _ => rfl

theorem addrs_invalidate (x : UInt32) : (c.invalidate x).1.addrs = c.addrs := by
  unfold invalidate
  split
  · rfl
  · rw [addrs_foldl fun c a => addrs_dropIncoming _ _, addrs_foldl fun c e => addrs_dropLink _ _,
      addrs_modify (g := Block.cut) fun _ => rfl]
    unfold dropHost
    split <;> rfl

theorem addrs_remove (x : UInt32) : (c.remove x).1.addrs = c.addrs.filter fun a => a ≠ x := by
  have hforget : ((c.invalidate x).1.forget x).addrs =
      (c.invalidate x).1.addrs.filter fun a => a ≠ x := by
    unfold forget addrs
    rw [List.filter_map]
    rfl
  rw [remove_eq, hforget, addrs_invalidate]

theorem addrs_connect (e : Edge) (old : Option UInt32) (dst : UInt32) :
    (c.connect e old dst).addrs = c.addrs := by
  have hset : (c.modify e.source (·.setLink e.slot (some dst))).addrs = c.addrs := by
    refine addrs_modify ?_ e.source
    exact fun _ => rfl
  unfold connect
  simp only
  rw [addrs_modify (g := fun b => { b with incoming := b.incoming ++ [e] }) fun _ => rfl]
  cases old with
  | none => exact hset
  | some old => exact (addrs_dropIncoming old e).trans hset

theorem addrs_link (source : UInt32) (slot : Nat) (dst : UInt32) :
    (c.link source slot dst).addrs = c.addrs := by
  obtain h | ⟨old, -, h⟩ := c.link_cases source slot dst
  · rw [h]
  · rw [h, addrs_connect]

theorem perm_insertSorted (b : Block) (l : List Block) : (insertSorted b l).Perm (b :: l) := by
  induction l with
  | nil => exact .refl _
  | cons a l ih =>
    unfold insertSorted
    split
    · exact .refl _
    · exact (ih.cons a).trans (.swap b a l)

theorem addrs_insert {b : Block} {c' : Cache} (h : c.insert b = .ok c') :
    c'.addrs.Perm (b.addr :: c.addrs) := by
  obtain ⟨-, rfl⟩ := c.insert_eq_ok_iff.mp h
  exact (perm_insertSorted b c.blocks).map Block.addr

theorem get?_eq_none_iff : c.get? addr = none ↔ addr ∉ c.addrs := by
  unfold get? addrs
  simp [List.find?_eq_none]

theorem get?_of_mem (h : c.addrs.Nodup) {b : Block} (hb : b ∈ c.blocks) :
    c.get? b.addr = some b := by
  cases hget : c.get? b.addr with
  | none => exact absurd (List.mem_map_of_mem hb) (get?_eq_none_iff.mp hget)
  | some a =>
    have ha : a ∈ c.blocks := List.mem_of_find?_eq_some hget
    rw [List.inj_on_of_nodup_map h ha hb (c.get?_addr hget)]

theorem snd_remove (x : UInt32) : (c.remove x).2 = c.lookup x := by
  rw [remove_eq, snd_invalidate]

end Cache

/-! ### The invariant -/

/-- The cache and the backend know the same code. -/
structure InStep (cpu : Cpu σ) (j : Jit) : Prop where
  nodup : j.cache.addrs.Nodup
  packed : j.backend.Packed
  live : ∀ addr code, j.cache.lookup addr = some code → ∃ f i, Lifted cpu addr f ∧
    j.backend.imageOf addr f = .ok i ∧ j.backend.image? code = some i
  cached : ∀ code i, j.backend.image? code = some i → j.cache.lookup i.guestAddr = some code

/-- All handles are free and the cache is empty. -/
theorem inStep_empty (hcache : j.cache = {}) (hpacked : j.backend.Packed)
    (hfree : ∀ code, j.backend.image? code = none) : InStep cpu j where
  nodup := by
    rw [hcache]
    exact List.nodup_nil
  packed := hpacked
  live addr code h := by
    rw [hcache] at h
    cases h
  cached code i h := by
    rw [hfree code] at h
    cases h

theorem InStep.congr (h : InStep cpu j) (hnodup : j'.cache.addrs.Nodup)
    (hlookup : ∀ x, j'.cache.lookup x = j.cache.lookup x) (hbackend : j'.backend = j.backend) :
    InStep cpu j' where
  nodup := hnodup
  packed := hbackend ▸ h.packed
  live addr code hcode := by
    rw [hlookup] at hcode
    rw [hbackend]
    exact h.live addr code hcode
  cached code i hi := by
    rw [hbackend] at hi
    rw [hlookup]
    exact h.cached code i hi

theorem InStep.guestAddr_eq (h : InStep cpu j) (hcode : j.cache.lookup addr = some code) :
    ∃ i, j.backend.image? code = some i ∧ i.guestAddr = addr := by
  obtain ⟨f, i, -, hi, himage⟩ := h.live addr code hcode
  exact ⟨i, himage, Backend.guestAddr_imageOf hi⟩

/-! ### Dropping blocks -/

/-- A block and its code are dropped together. -/
theorem InStep.dropped (h : InStep cpu j) (hcode : j.cache.lookup addr = some code)
    (hnodup : j'.cache.addrs.Nodup)
    (hlookup : ∀ x, j'.cache.lookup x = if x = addr then none else j.cache.lookup x)
    (hbackend : j'.backend = j.backend.free code) : InStep cpu j' := by
  obtain ⟨i₀, hi₀, haddr₀⟩ := h.guestAddr_eq hcode
  refine ⟨hnodup, hbackend ▸ h.packed.free code, ?_, ?_⟩
  · intro x n hn
    rw [hlookup] at hn
    split at hn
    · cases hn
    case isFalse hx =>
      obtain ⟨f, i, hf, hi, himage⟩ := h.live x n hn
      have hne : n ≠ code := by
        rintro rfl
        rw [hi₀] at himage
        cases himage
        exact hx ((Backend.guestAddr_imageOf hi).symm.trans haddr₀)
      refine ⟨f, i, hf, ?_, ?_⟩
      · rw [hbackend, Backend.imageOf_free]
        exact hi
      · rw [hbackend, Backend.image?_free, if_neg hne]
        exact himage
  · intro n i hi
    rw [hbackend, Backend.image?_free] at hi
    split at hi
    · cases hi
    case isFalse hne =>
      have hn := h.cached n i hi
      rw [hlookup, if_neg, hn]
      intro hx
      rw [hx, hcode] at hn
      exact hne (Option.some.inj hn).symm

/-- There was no code to drop. -/
theorem InStep.absent (h : InStep cpu j) (hcode : j.cache.lookup addr = none)
    (hnodup : j'.cache.addrs.Nodup)
    (hlookup : ∀ x, j'.cache.lookup x = if x = addr then none else j.cache.lookup x)
    (hbackend : j'.backend = j.backend) : InStep cpu j' := by
  have hsame : ∀ x, j'.cache.lookup x = j.cache.lookup x := by
    intro x
    rw [hlookup]
    split
    case isTrue hx => rw [hx, hcode]
    case isFalse => rfl
  exact h.congr hnodup hsame hbackend

theorem InStep.freeBlock (h : InStep cpu j) (addr : UInt32) : InStep cpu (j.freeBlock addr) := by
  have hnodup : (j.cache.remove addr).1.addrs.Nodup := by
    rw [Cache.addrs_remove]
    exact h.nodup.filter _
  have hlookup := j.cache.lookup_remove addr
  have hcode := Cache.snd_remove (c := j.cache) addr
  unfold Jit.freeBlock
  split
  case h_1 c code hremove =>
    rw [hremove] at hnodup hlookup hcode
    exact h.dropped hcode.symm hnodup hlookup rfl
  case h_2 c hremove =>
    rw [hremove] at hnodup hlookup hcode
    exact h.absent hcode.symm hnodup hlookup rfl

theorem InStep.dropCode (h : InStep cpu j) (addr : UInt32) : InStep cpu (j.dropCode addr) := by
  have hnodup : (j.cache.invalidate addr).1.addrs.Nodup := by
    rw [Cache.addrs_invalidate]
    exact h.nodup
  have hlookup := j.cache.lookup_invalidate addr
  have hcode := j.cache.snd_invalidate addr
  unfold Jit.dropCode
  split
  case h_1 c code hremove =>
    rw [hremove] at hnodup hlookup hcode
    exact h.dropped hcode.symm hnodup hlookup rfl
  case h_2 c hremove =>
    rw [hremove] at hnodup hlookup hcode
    exact h.absent hcode.symm hnodup hlookup rfl

theorem InStep.foldl {α : Type} {op : Jit → α → Jit} (h : InStep cpu j)
    (hop : ∀ j a, InStep cpu j → InStep cpu (op j a)) (l : List α) : InStep cpu (l.foldl op j) := by
  induction l generalizing j with
  | nil => exact h
  | cons a l ih => exact ih (hop j a h)

theorem InStep.invalidateRange (h : InStep cpu j) (addr len : UInt32) :
    InStep cpu (j.invalidateRange addr len) := h.foldl (fun _ a h => h.freeBlock a) _

theorem InStep.invalidateBlocks (h : InStep cpu j) : InStep cpu j.invalidateBlocks :=
  h.foldl (fun _ a h => h.dropCode a) _

theorem inStep_freeBlocks (j : Jit) : InStep cpu j.freeBlocks :=
  inStep_empty rfl j.backend.packed_reset j.backend.image?_reset

theorem InStep.slowed (h : InStep cpu j) (addr : UInt32) : InStep cpu (j.slowed addr) := by
  refine h.congr ?_ ?_ rfl
  · change (j.cache.modify _ _).addrs.Nodup
    rw [Cache.addrs_modify (g := fun b => { b with fast := false }) fun _ => rfl]
    exact h.nodup
  · exact j.cache.lookup_modify (g := fun b => { b with fast := false }) (fun _ => rfl)
      (fun _ => rfl) _

theorem InStep.handleException (h : InStep cpu j) {host : Nat} {hit : Bool}
    (hr : j.handleException host = .ok (j', hit)) : InStep cpu j' := by
  obtain ⟨-, rfl⟩ | ⟨a, b, -, -, -, -, rfl⟩ := handleException_cases hr
  · exact h
  · exact (h.slowed a).dropCode a

/-! ### Compiling blocks -/

/-- The backend has the code of one more block, which is about to be put into the cache. -/
structure Pending (cpu : Cpu σ) (j : Jit) (addr : UInt32) (f : Fragment) (code : Nat) : Prop where
  nodup : j.cache.addrs.Nodup
  packed : j.backend.Packed
  image : ∃ i, j.backend.imageOf addr f = .ok i ∧ j.backend.image? code = some i
  live : ∀ x n, j.cache.lookup x = some n → n ≠ code ∧ ∃ f i, Lifted cpu x f ∧
    j.backend.imageOf x f = .ok i ∧ j.backend.image? n = some i
  cached : ∀ n i, n ≠ code → j.backend.image? n = some i → j.cache.lookup i.guestAddr = some n

theorem InStep.assembled (h : InStep cpu j) {b' : Backend} {r : Assembling Nat}
    (hb : j.backend.Assembles addr f b' r) :
    (∀ e, r = .error e → InStep cpu { j with backend := b' }) ∧
    (∀ code, r = .ok code → Pending cpu { j with backend := b' } addr f code) := by
  constructor
  · intro e he
    have hsame := hb.keeps e he
    refine ⟨h.nodup, hb.packed, ?_, ?_⟩
    · intro x n hn
      obtain ⟨f, i, hf, hi, himage⟩ := h.live x n hn
      refine ⟨f, i, hf, ?_, ?_⟩
      · change b'.imageOf x f = _
        rw [hb.imageOf_eq, hi]
      · change b'.image? n = _
        rw [hsame, himage]
    · intro n i hi
      change b'.image? n = _ at hi
      rw [hsame] at hi
      exact h.cached n i hi
  · intro code hcode
    obtain ⟨i₀, hi₀, hfree, hstores⟩ := hb.stores code hcode
    refine ⟨h.nodup, hb.packed, ⟨i₀, ?_, ?_⟩, ?_, ?_⟩
    · change b'.imageOf addr f = _
      rw [hb.imageOf_eq, hi₀]
    · change b'.image? code = _
      rw [hstores, if_pos rfl]
    · intro x n hn
      obtain ⟨f, i, hf, hi, himage⟩ := h.live x n hn
      have hne : n ≠ code := by
        rintro rfl
        rw [hfree] at himage
        cases himage
      refine ⟨hne, f, i, hf, ?_, ?_⟩
      · change b'.imageOf x f = _
        rw [hb.imageOf_eq, hi]
      · change b'.image? n = _
        rw [hstores, if_neg hne, himage]
    · intro n i hne hi
      change b'.image? n = _ at hi
      rw [hstores, if_neg hne] at hi
      exact h.cached n i hi

/-- Assembly leaves both in step, or the new code pending. If everything is dropped for lack of
room, it is dropped on both sides. -/
theorem InStep.assemble (h : InStep cpu j) {r : Except Error Nat}
    (hr : j.assemble addr f = .ok (j', r)) : (∀ e, r = .error e → InStep cpu j') ∧
      (∀ code, r = .ok code → Pending cpu j' addr f code) := by
  have hfirst := h.assembled (Backend.assembles h.packed addr f)
  unfold Jit.assemble at hr
  split at hr
  case h_1 b' code hb =>
    rw [hb] at hfirst
    cases hr
    refine ⟨fun _ h => (by cases h), fun _ hcode => ?_⟩
    cases hcode
    exact hfirst.2 code rfl
  case h_2 => cases hr
  case h_3 b' hb =>
    have hflush : InStep cpu ({ j with backend := b' } : Jit).freeBlocks := inStep_freeBlocks _
    have hsecond := hflush.assembled (Backend.assembles hflush.packed addr f)
    simp only at hr
    split at hr
    case h_1 b'' code hb'' =>
      rw [hb''] at hsecond
      cases hr
      refine ⟨fun _ h => (by cases h), fun _ hcode => ?_⟩
      cases hcode
      exact hsecond.2 code rfl
    case h_2 => cases hr
    case h_3 b'' e hb'' =>
      rw [hb''] at hsecond
      cases hr
      exact ⟨fun _ _ => hsecond.1 _ rfl, fun _ h => (by cases h)⟩
  case h_4 b' e _ hb =>
    rw [hb] at hfirst
    cases hr
    exact ⟨fun _ _ => hfirst.1 _ rfl, fun _ h => (by cases h)⟩

theorem Pending.install (h : Pending cpu j addr f code) (hf : Lifted cpu addr f) {size : Nat}
    {exits : List UInt32} {fast : Bool} (hj : j.install addr size code exits fast = .ok j') :
    InStep cpu j' ∧ j'.cache.lookup addr = some code := by
  obtain ⟨hostAddr, hostSize, hc, hbackend⟩ := install_eq_ok hj
  have hlookup := Cache.lookup_insert hc
  have haddrs := Cache.addrs_insert hc
  obtain ⟨⟨-, -, habsent⟩, -⟩ := j.cache.insert_eq_ok_iff.mp hc
  change j.cache.get? addr = none at habsent
  change ∀ x, j'.cache.lookup x = if x = addr then some code else j.cache.lookup x at hlookup
  have hnone : j.cache.lookup addr = none := by
    unfold Cache.lookup
    rw [habsent]
    rfl
  obtain ⟨i₀, hi₀, himage₀⟩ := h.image
  refine ⟨⟨?_, ?_, ?_, ?_⟩, ?_⟩
  · exact haddrs.nodup_iff.mpr (List.nodup_cons.mpr ⟨Cache.get?_eq_none_iff.mp habsent, h.nodup⟩)
  · rw [hbackend]
    exact h.packed
  · intro x n hn
    rw [hbackend]
    rw [hlookup] at hn
    split at hn
    case isTrue hx =>
      cases hn
      rw [hx]
      exact ⟨f, i₀, hf, hi₀, himage₀⟩
    case isFalse => exact (h.live x n hn).2
  · intro n i hi
    rw [hbackend] at hi
    by_cases hn : n = code
    · subst hn
      rw [himage₀] at hi
      cases hi
      rw [hlookup, if_pos (Backend.guestAddr_imageOf hi₀)]
    · have hcached := h.cached n i hn hi
      rw [hlookup, if_neg, hcached]
      intro hx
      rw [hx, hnone] at hcached
      cases hcached
  · rw [hlookup, if_pos rfl]

/-- Preparing a fragment drops the block that was there. -/
theorem InStep.prepared (h : InStep cpu j) {w : World σ} {size : Nat} {j₁ : Jit}
    (hp : Prepares cpu w addr j size f j₁) : InStep cpu j₁ := by
  have hfreed := h.freeBlock addr
  obtain ⟨hcache, hbackend⟩ := hp.same
  refine hfreed.congr ?_ (fun x => ?_) hbackend
  · rw [hcache]
    exact hfreed.nodup
  · rw [hcache]

/-- Compilation keeps both in step, also where it fails. -/
theorem InStep.compile (h : InStep cpu j) {w : World σ} {r : Except Error Nat}
    (hr : j.compile cpu w addr = .ok (j', r)) :
    InStep cpu j' ∧ ∀ code, r = .ok code → j'.cache.lookup addr = some code := by
  have hfreed := h.freeBlock addr
  cases compile_cases hr with
  | unwritten hcache hbackend =>
    refine ⟨hfreed.congr ?_ (fun x => ?_) hbackend, fun _ h => (by cases h)⟩
    · rw [hcache]
      exact hfreed.nodup
    · rw [hcache]
  | refused hprepares hassemble =>
    exact ⟨((h.prepared hprepares).assemble hassemble).1 _ rfl, fun _ h => (by cases h)⟩
  | installed hprepares hassemble hinstall =>
    have hpending := ((h.prepared hprepares).assemble hassemble).2 _ rfl
    obtain ⟨hstep, hlookup⟩ := hpending.install hprepares.lifted hinstall
    refine ⟨hstep, fun _ hcode => ?_⟩
    cases hcode
    exact hlookup

theorem InStep.find (h : InStep cpu j) {w : World σ} {r : Except Error Nat}
    (hr : j.find cpu w addr = .ok (j', r)) :
    InStep cpu j' ∧ ∀ code, r = .ok code → j'.cache.lookup addr = some code := by
  unfold Jit.find at hr
  split at hr
  case h_1 code hcode =>
    cases hr
    refine ⟨h, fun _ hr => ?_⟩
    cases hr
    exact hcode
  case h_2 => exact h.compile hr

/-! ### Dispatch -/

theorem lookup_linkExit (j : Jit) (source : UInt32) (slot : Nat) (dst x : UInt32) :
    (j.linkExit source slot dst).cache.lookup x = j.cache.lookup x := by
  unfold linkExit
  split
  · exact Cache.lookup_link j.cache source slot dst x
  · rfl

theorem InStep.linkExit (h : InStep cpu j) (source : UInt32) (slot : Nat) (dst : UInt32) :
    InStep cpu (j.linkExit source slot dst) := by
  refine h.congr ?_ (lookup_linkExit j source slot dst) ?_
  · unfold Jit.linkExit
    split
    · change (j.cache.link source slot dst).addrs.Nodup
      rw [Cache.addrs_link]
      exact h.nodup
    · exact h.nodup
  · unfold Jit.linkExit
    split <;> rfl

theorem InStep.findLinked (h : InStep cpu j) {w : World σ} {source : UInt32} {slot : Nat}
    {r : Except Error Nat} (hr : j.findLinked cpu w source slot addr = .ok (j', r)) :
    InStep cpu j' ∧ ∀ code, r = .ok code → j'.cache.lookup addr = some code := by
  unfold Jit.findLinked at hr
  obtain ⟨⟨j₁, r₁⟩, hfind, hr⟩ := Interp.bind_eq_ok hr
  obtain ⟨hstep, hlookup⟩ := h.find hfind
  cases r₁ with
  | error e =>
    cases hr
    exact ⟨hstep, hlookup⟩
  | ok code =>
    cases hr
    refine ⟨hstep.linkExit source slot addr, fun code hcode => ?_⟩
    rw [lookup_linkExit]
    exact hlookup code hcode

/-- Behind a block comes the code for the pc. -/
theorem InStep.follow (h : InStep cpu j) {w : World σ} {source : UInt32} {exit : Exit}
    {r : Except Error Nat} (hr : j.follow cpu w source exit = .ok (j', r)) :
    InStep cpu j' ∧ ∀ code, r = .ok code →
      j'.cache.lookup (w.get32 cpu.offsets.pc) = some code := by
  unfold Jit.follow at hr
  cases exit with
  | dynamic => exact h.find hr
  | static slot =>
    simp only at hr
    split at hr
    case h_1 dst code hlinked =>
      split at hr
      case isTrue hdst =>
        cases hr
        refine ⟨h, fun _ hcode => ?_⟩
        cases hcode
        unfold Cache.linked at hlinked
        simp only [Option.bind_eq_bind, Option.bind_eq_some_iff, Option.pure_def, Option.some.injEq,
          Prod.mk.injEq] at hlinked
        obtain ⟨_, _, _, _, _, _, d, hd, rfl, rfl⟩ := hlinked
        rwa [← hdst]
      case isFalse => exact h.findLinked hr
    case h_2 => exact h.findLinked hr

end Recompiler.Jit
