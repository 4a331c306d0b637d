import Recompiler.Proofs.Jit.FastMem

/-!
Dropping a range of guest bytes. The cache keeps its blocks in order and its edges at both ends, so
the blocks that share a byte with the range go, and of the others only the edges to and from them.
-/
namespace Recompiler.Jit

open IR Relation

variable {σ : Type} {cpu : Cpu σ} {j j' : Jit} {a addr len x : UInt32}

namespace Block

variable {b b' : Block}

/-- A block and the `len` bytes from `addr` on have a guest byte in common. Addresses wrap. -/
def Meets (b : Block) (addr len : UInt32) : Prop := ∃ x, x - b.addr < b.size ∧ x - addr < len

/-- The block with its edges to and from some addresses only. -/
def keeping (b : Block) (here : UInt32 → Bool) : Block :=
  { b with links := b.links.map (·.filter here), incoming := b.incoming.filter (here ·.source) }

/-- What a block is besides its edges. -/
def frame (b : Block) : Block := { b with links := b.links.map fun _ => none, incoming := [] }

/-- Without wrapping, the bytes of a block or a range lie between its first and its last one. -/
theorem sub_lt_iff {start size : UInt32} (hend : start.toNat + size.toNat ≤ 2 ^ 32) :
    x - start < size ↔ start.toNat ≤ x.toNat ∧ x.toNat < start.toNat + size.toNat := by
  have hx := x.toNat_lt
  have hstart := start.toNat_lt
  rw [UInt32.lt_iff_toNat_lt, UInt32.toNat_sub]
  omega

theorem overlaps_iff_meets (hsize : 0 < b.size) (hwrap : b.addr.toNat + b.size.toNat ≤ 2 ^ 32)
    (hlen : 0 < len) (hend : addr.toNat + len.toNat ≤ 2 ^ 32) :
    b.overlaps addr len = true ↔ b.Meets addr len := by
  have hsize' : 0 < b.size.toNat := UInt32.lt_iff_toNat_lt.mp hsize
  have hlen' : 0 < len.toNat := UInt32.lt_iff_toNat_lt.mp hlen
  unfold overlaps Meets
  simp only [sub_lt_iff hwrap, sub_lt_iff hend, Bool.and_eq_true, decide_eq_true_eq]
  constructor
  · intro h
    -- The later one of the two first bytes lies in both.
    by_cases hle : addr.toNat ≤ b.addr.toNat
    · exact ⟨b.addr, by omega⟩
    · exact ⟨addr, by omega⟩
  · intro ⟨x, hx⟩
    omega

theorem keeping_keeping (here here' : UInt32 → Bool) :
    (b.keeping here).keeping here' = b.keeping fun a => here a && here' a := by
  unfold keeping
  simp only [List.map_map, List.filter_filter]
  congr 2
  · funext l
    cases l with
    | none => rfl
    | some a => by_cases ha : here a <;> simp [Option.filter, ha]
  · funext e
    exact Bool.and_comm _ _

/-- Only the addresses that the edges lead to or come from matter. -/
theorem keeping_congr {here here' : UInt32 → Bool}
    (hlinks : ∀ dst, some dst ∈ b.links → here dst = here' dst)
    (hin : ∀ e ∈ b.incoming, here e.source = here' e.source) :
    b.keeping here = b.keeping here' := by
  have hmap : b.links.map (·.filter here) = b.links.map (·.filter here') := by
    apply List.map_congr_left
    intro l hl
    cases l with
    | none => rfl
    | some dst => simp only [Option.filter, hlinks dst hl]
  unfold keeping
  rw [hmap, List.filter_congr hin]

theorem keeping_all : (b.keeping fun _ => true) = b := by
  have hfilter : Option.filter (fun _ : UInt32 => true) = id := by
    funext l
    cases l <;> rfl
  unfold keeping
  rw [hfilter, List.map_id, List.filter_eq_self.mpr fun _ _ => rfl]

/-- A block is its frame, its links and the exits it has recorded. -/
theorem eq_of_frame (hframe : b.frame = b'.frame)
    (hlinks : ∀ slot : Nat, b.links[slot]?.join = b'.links[slot]?.join)
    (hin : b.incoming = b'.incoming) : b = b' := by
  have hlength : b.links.length = b'.links.length := by
    simpa [frame] using congrArg (List.length ∘ Block.links) hframe
  have hsame : b.links = b'.links := by
    apply List.ext_getElem hlength
    intro slot h h'
    simpa [h, h'] using hlinks slot
  cases b
  cases b'
  simp_all [frame]

theorem frame_keeping (here : UInt32 → Bool) : (b.keeping here).frame = b.frame := by
  unfold frame keeping
  simp [Function.comp_def]

end Block

/-! ### The order of the blocks -/

namespace Cache

variable {c c' : Cache}

/-- Each address once, in order. -/
def Sorted (c : Cache) : Prop := c.addrs.Pairwise (· < ·)

theorem sorted_insertSorted {b : Block} {l : List Block} (h : (l.map Block.addr).Pairwise (· < ·))
    (habsent : b.addr ∉ l.map Block.addr) :
    ((insertSorted b l).map Block.addr).Pairwise (· < ·) := by
  induction l with
  | nil => exact List.pairwise_singleton _ _
  | cons y l ih =>
    rw [List.map_cons, List.pairwise_cons] at h
    rw [List.map_cons, List.mem_cons, not_or] at habsent
    unfold insertSorted
    by_cases hlt : b.addr < y.addr
    · rw [if_pos hlt, List.map_cons, List.map_cons, List.pairwise_cons, List.pairwise_cons]
      refine ⟨?_, h⟩
      intro z hz
      rcases List.mem_cons.mp hz with rfl | hz
      · exact hlt
      · exact UInt32.lt_trans hlt (h.1 z hz)
    · have hgt : y.addr < b.addr := by
        have hne : b.addr.toNat ≠ y.addr.toNat := fun e => habsent.1 (UInt32.toNat_inj.mp e)
        rw [UInt32.lt_iff_toNat_lt] at hlt ⊢
        omega
      rw [if_neg hlt, List.map_cons, List.pairwise_cons]
      refine ⟨?_, ih h.2 habsent.2⟩
      intro z hz
      have hz' : z ∈ b.addr :: l.map Block.addr :=
        ((perm_insertSorted b l).map Block.addr).mem_iff.mp hz
      rcases List.mem_cons.mp hz' with rfl | hz'
      · exact hgt
      · exact h.1 z hz'

theorem Sorted.insert {b : Block} (h : c.Sorted) (hb : c.insert b = .ok c') : c'.Sorted := by
  obtain ⟨⟨-, -, habsent⟩, rfl⟩ := c.insert_eq_ok_iff.mp hb
  exact sorted_insertSorted h (get?_eq_none_iff.mp habsent)

theorem Sorted.of_addrs (h : c.Sorted) (haddrs : c'.addrs = c.addrs) : c'.Sorted := by
  unfold Sorted
  rw [haddrs]
  exact h

theorem Sorted.remove (h : c.Sorted) (a : UInt32) : (c.remove a).1.Sorted := by
  unfold Sorted
  rw [addrs_remove]
  exact h.filter _

/-- Blocks behind the end of a range have no byte in it, so the scan misses none. -/
theorem Sorted.overlapping_eq (h : c.Sorted) (addr len : UInt32) :
    c.overlapping addr len = (c.blocks.filter (·.overlaps addr len)).map Block.addr := by
  have hscan : ∀ l : List Block, (l.map Block.addr).Pairwise (· < ·) →
      (l.takeWhile fun b => b.addr.toNat < addr.toNat + len.toNat).filter (·.overlaps addr len) =
        l.filter (·.overlaps addr len) := by
    intro l hl
    induction l with
    | nil => rfl
    | cons b l ih =>
      rw [List.map_cons, List.pairwise_cons] at hl
      by_cases hb : decide (b.addr.toNat < addr.toNat + len.toNat) = true
      · rw [List.takeWhile_cons, if_pos hb, List.filter_cons, List.filter_cons, ih hl.2]
      · have hnone : ∀ b' ∈ b :: l, ¬ b'.overlaps addr len = true := by
          intro b' hb'
          have hle : b.addr.toNat ≤ b'.addr.toNat := by
            rcases List.mem_cons.mp hb' with rfl | hb'
            · exact Nat.le_refl _
            · exact Nat.le_of_lt (UInt32.lt_iff_toNat_lt.mp (hl.1 _ (List.mem_map_of_mem hb')))
          rw [decide_eq_true_eq] at hb
          simp only [Block.overlaps, Bool.and_eq_true, decide_eq_true_eq]
          omega
        rw [List.takeWhile_cons, if_neg hb, List.filter_nil, List.filter_eq_nil_iff.mpr hnone]
  unfold overlapping
  simp only
  rw [hscan c.blocks h]

/-! ### Removal of many blocks -/

/-- The block at an address, besides its edges. -/
def frame? (c : Cache) (x : UInt32) : Option Block := (c.get? x).map Block.frame

theorem frame?_modify {g : Block → Block} (hg : ∀ b, (g b).frame = b.frame) (y x : UInt32) :
    (c.modify y g).frame? x = c.frame? x := by
  have haddr : ∀ b, (g b).addr = b.addr := fun b =>
    show (g b).frame.addr = b.frame.addr by rw [hg b]
  unfold frame?
  rw [c.get?_modify haddr]
  by_cases hx : x = y
  · rw [if_pos hx]
    cases c.get? x <;> simp [hg]
  · rw [if_neg hx]

theorem frame?_dropIncoming (dst : UInt32) (e : Edge) (x : UInt32) :
    (c.dropIncoming dst e).frame? x = c.frame? x := by
  unfold dropIncoming
  apply frame?_modify
  exact fun _ => rfl

theorem frame?_dropLink (e : Edge) (dst x : UInt32) : (c.dropLink e dst).frame? x = c.frame? x := by
  unfold dropLink
  apply frame?_modify
  intro b
  split
  · unfold Block.setLink Block.frame
    simp [List.map_set]
  · rfl

theorem frame?_foldl {α : Type} {op : Cache → α → Cache}
    (hop : ∀ c a, (op c a).frame? x = c.frame? x) (l : List α) (c : Cache) :
    (l.foldl op c).frame? x = c.frame? x := by
  induction l generalizing c with
  | nil => rfl
  | cons a l ih => rw [List.foldl_cons, ih, hop]

/-- Cutting a block changes nothing but edges elsewhere. -/
theorem frame?_invalidate (hx : x ≠ a) : (c.invalidate a).1.frame? x = c.frame? x := by
  cases h : c.get? a with
  | none => rw [invalidate_of_absent h]
  | some b =>
    rw [invalidate_eq h, frame?_foldl fun c o => frame?_dropIncoming _ _ _,
      frame?_foldl fun c e => frame?_dropLink _ _ _]
    unfold frame?
    rw [get?_cutAt, if_neg hx]

/-- The other end of an edge is a block. -/
theorem Symmetric.ends (h : c.Symmetric) {b : Block} (hb : c.get? x = some b) :
    (∀ dst, some dst ∈ b.links → (c.get? dst).isSome) ∧
      ∀ e ∈ b.incoming, (c.get? e.source).isSome := by
  constructor
  · intro dst hdst
    obtain ⟨slot, hslot⟩ := List.getElem?_of_mem hdst
    have htarget : c.target? ⟨x, slot⟩ = some dst := c.target?_eq_some_iff.mpr ⟨b, hb, hslot⟩
    obtain ⟨b', hb', -⟩ := c.mem_incoming_iff.mp ((h.target?_iff _ _).mp htarget)
    simp [hb']
  · intro e he
    have hin : e ∈ c.incoming x := c.mem_incoming_iff.mpr ⟨b, hb, he⟩
    obtain ⟨b', hb', -⟩ := c.target?_eq_some_iff.mp ((h.target?_iff _ _).mpr hin)
    simp [hb']

/-- Without the block at an address, the others lose their edges to and from it. -/
theorem Symmetric.get?_remove (h : c.Symmetric) (a x : UInt32) :
    (c.remove a).1.get? x = if x = a then none else (c.get? x).map (·.keeping (· ≠ a)) := by
  rw [remove_eq, get?_forget]
  by_cases hx : x = a
  · rw [if_pos hx, if_pos hx]
  · rw [if_neg hx, if_neg hx]
    have hframe := frame?_invalidate (c := c) hx
    have htarget := fun slot => h.target?_invalidate a ⟨x, slot⟩
    have hin := h.incoming_invalidate a x
    unfold frame? at hframe
    unfold target? at htarget
    unfold incoming at hin
    cases hb : c.get? x with
    | none =>
      rw [hb] at hframe
      simpa using hframe
    | some b =>
      rw [hb, Option.map_some] at hframe
      obtain ⟨b', hb', hframe⟩ := Option.map_eq_some_iff.mp hframe
      simp only [hb, hb', Option.bind_some, hx, false_or, if_false, Option.map_some,
        Option.getD_some] at htarget hin
      rw [hb', Option.map_some, Option.some.injEq]
      apply Block.eq_of_frame
      · rw [hframe, Block.frame_keeping]
      · intro slot
        rw [htarget slot]
        unfold Block.keeping
        cases hl : b.links[slot]? with
        | none => simp [hl]
        | some l =>
          cases l with
          | none => simp [hl]
          | some dst => by_cases hdst : dst = a <;> simp [hl, hdst, Option.filter]
      · exact hin

/-- Without the blocks at some addresses, the others lose their edges to and from them. -/
theorem Symmetric.get?_removeAll (h : c.Symmetric) (l : List UInt32) (x : UInt32) :
    (l.foldl (fun c a => (c.remove a).1) c).get? x =
      if x ∈ l then none else (c.get? x).map (·.keeping (· ∉ l)) := by
  induction l generalizing c with
  | nil =>
    simp only [List.foldl_nil, List.not_mem_nil, if_false, not_false_eq_true, decide_true]
    cases c.get? x with
    | none => rfl
    | some b => rw [Option.map_some, Block.keeping_all]
  | cons a l ih =>
    rw [List.foldl_cons, ih (h.remove a), h.get?_remove]
    by_cases hxl : x ∈ l
    · simp [hxl]
    · by_cases hxa : x = a
      · simp [hxa]
      · have hboth : ∀ b : Block, (b.keeping (· ≠ a)).keeping (· ∉ l) = b.keeping (· ∉ a :: l) := by
          intro b
          rw [Block.keeping_keeping]
          congr 1
          funext y
          simp
        have hxal : x ∉ a :: l := by simp [hxl, hxa]
        rw [if_neg hxl, if_neg hxa, if_neg hxal, Option.map_map]
        congr 1
        funext b
        exact hboth b

end Cache

/-! ### The caches of a recompiler -/

/-- What holds of the cache between any two changes: both ends of each edge agree, and blocks are in
order. -/
structure Tidy (j : Jit) : Prop where
  symmetric : j.cache.Symmetric
  sorted : j.cache.Sorted

theorem tidy_of_empty (h : j.cache = {}) : Tidy j where
  symmetric := h ▸ Cache.symmetric_empty
  sorted := by
    unfold Cache.Sorted
    rw [h]
    exact List.Pairwise.nil

theorem cache_freeBlock (j : Jit) (a : UInt32) :
    (j.freeBlock a).cache = (j.cache.remove a).1 := by
  unfold freeBlock
  split <;> simp_all

theorem cache_dropCode (j : Jit) (a : UInt32) :
    (j.dropCode a).cache = (j.cache.invalidate a).1 := by
  unfold dropCode
  split <;> simp_all

theorem Tidy.freeBlock (h : Tidy j) (a : UInt32) : Tidy (j.freeBlock a) where
  symmetric := by
    rw [cache_freeBlock]
    exact h.symmetric.remove a
  sorted := by
    rw [cache_freeBlock]
    exact h.sorted.remove a

theorem Tidy.dropCode (h : Tidy j) (a : UInt32) : Tidy (j.dropCode a) where
  symmetric := by
    rw [cache_dropCode]
    exact h.symmetric.invalidate a
  sorted := by
    rw [cache_dropCode]
    exact h.sorted.of_addrs (Cache.addrs_invalidate a)

theorem Tidy.linkExit (h : Tidy j) (source : UInt32) (slot : Nat) (dst : UInt32) :
    Tidy (j.linkExit source slot dst) := by
  unfold Jit.linkExit
  split
  · exact ⟨h.symmetric.link source slot dst, h.sorted.of_addrs (Cache.addrs_link source slot dst)⟩
  · exact h

theorem Tidy.foldl {α : Type} {op : Jit → α → Jit} (h : Tidy j)
    (hop : ∀ j a, Tidy j → Tidy (op j a)) (l : List α) : Tidy (l.foldl op j) := by
  induction l generalizing j with
  | nil => exact h
  | cons a l ih => exact ih (hop j a h)

theorem Tidy.invalidateRange (h : Tidy j) (addr len : UInt32) : Tidy (j.invalidateRange addr len) :=
  h.foldl (fun _ a h => h.freeBlock a) _

theorem Tidy.of_cache (h : Tidy j) (hcache : j'.cache = j.cache) : Tidy j' where
  symmetric := by
    rw [hcache]
    exact h.symmetric
  sorted := by
    rw [hcache]
    exact h.sorted

theorem Tidy.slowed (h : Tidy j) (a : UInt32) : Tidy (j.slowed a) := by
  have hkeeps := j.cache.lookup_modify (g := ({ · with fast := false })) (fun _ => rfl)
    (fun _ => rfl) a
  have htarget := j.cache.target?_modify (g := ({ · with fast := false })) (fun _ => rfl)
    (fun _ => rfl) a
  have hin := j.cache.incoming_modify (g := ({ · with fast := false })) (fun _ => rfl)
    (fun _ => rfl) a
  unfold Jit.slowed
  refine ⟨⟨?_, ?_, ?_, ?_⟩, h.sorted.of_addrs ?_⟩
  · intro e dst
    rw [htarget, hin]
    exact h.symmetric.target?_iff e dst
  · intro x
    rw [hin]
    exact h.symmetric.nodup x
  · intro x hx
    rw [hin]
    exact h.symmetric.incoming_nil x (hkeeps x ▸ hx)
  · intro e he
    rw [htarget]
    exact h.symmetric.target?_none e (hkeeps e.source ▸ he)
  · exact Cache.addrs_modify (g := ({ · with fast := false })) (fun _ => rfl) a

theorem Tidy.handleException (h : Tidy j) {host : Nat} {hit : Bool}
    (hj : j.handleException host = .ok (j', hit)) : Tidy j' := by
  obtain ⟨-, rfl⟩ | ⟨a, b, -, -, -, -, rfl⟩ := handleException_cases hj
  · exact h
  · exact (h.slowed a).dropCode a

theorem Tidy.install (h : Tidy j) {size code : Nat} {exits : List UInt32} {fast : Bool}
    (hj : j.install addr size code exits fast = .ok j') : Tidy j' := by
  obtain ⟨hostAddr, hostSize, hc, -⟩ := install_eq_ok hj
  exact ⟨h.symmetric.insert hc, h.sorted.insert hc⟩

/-- Assembly leaves the cache alone or drops everything. -/
theorem Tidy.assemble (h : Tidy j) {f : Fragment} {r : Except Error Nat}
    (hj : j.assemble addr f = .ok (j', r)) : Tidy j' := by
  unfold Jit.assemble at hj
  split at hj
  case h_1 =>
    cases hj
    exact ⟨h.symmetric, h.sorted⟩
  case h_2 => cases hj
  case h_3 =>
    simp only at hj
    split at hj
    · cases hj
      exact tidy_of_empty rfl
    · cases hj
    · cases hj
      exact tidy_of_empty rfl
  case h_4 =>
    cases hj
    exact ⟨h.symmetric, h.sorted⟩

theorem Tidy.compile (h : Tidy j) {w : World σ} {r : Except Error Nat}
    (hj : j.compile cpu w addr = .ok (j', r)) : Tidy j' := by
  have hfreed := h.freeBlock addr
  cases compile_cases hj with
  | unwritten hcache => exact hfreed.of_cache hcache
  | refused hprepares hassemble => exact (hfreed.of_cache hprepares.same.1).assemble hassemble
  | installed hprepares hassemble hinstall =>
    exact ((hfreed.of_cache hprepares.same.1).assemble hassemble).install hinstall

theorem Tidy.change {cs : List (Call σ)} (h : Tidy j) (hj : Change cpu j cs j') : Tidy j' := by
  cases hj with
  | compile hj => exact h.compile hj
  | linkExit source slot dst => exact h.linkExit source slot dst
  | dropCode a => exact h.dropCode a
  | handleException hj => exact h.handleException hj

theorem Tidy.evolves {cs : List (Call σ)} (h : Tidy j) (hj : Evolves cpu j cs j') : Tidy j' := by
  induction hj with
  | refl => exact h
  | tail _ hchange ih => exact ih.change hchange

theorem Tidy.serve (h : Tidy j) {r : Request σ} (hr : r.serve cpu j = .ok j') : Tidy j' := by
  cases r with
  | invalidateRange addr len =>
    cases hr
    exact h.invalidateRange addr len
  | freeBlocks =>
    cases hr
    exact tidy_of_empty rfl
  | run | compile | invalidateBlocks | handleException => exact h.evolves (evolves_serve rfl hr)

theorem Tidy.serveAll (h : Tidy j) (rs : List (Request σ))
    (hrs : rs.foldlM (Request.serve cpu) j = .ok j') : Tidy j' := by
  induction rs generalizing j with
  | nil =>
    cases hrs
    exact h
  | cons r rs ih =>
    rw [List.foldlM_cons] at hrs
    obtain ⟨j₁, hr, hrs⟩ := Interp.bind_eq_ok hrs
    exact ih (h.serve hr) hrs

/-! ### A range of guest bytes -/

theorem cache_freeAll (l : List UInt32) (j : Jit) :
    (l.foldl freeBlock j).cache = l.foldl (fun c a => (c.remove a).1) j.cache := by
  induction l generalizing j with
  | nil => rfl
  | cons a l ih => rw [List.foldl_cons, List.foldl_cons, ih, cache_freeBlock]

theorem image?_freeBlock (j : Jit) (a : UInt32) (code : Nat) :
    (j.freeBlock a).backend.image? code =
      if j.cache.lookup a = some code then none else j.backend.image? code := by
  rw [← Cache.snd_remove]
  unfold freeBlock
  split
  case h_1 n hremove =>
    rw [hremove, Backend.image?_free]
    simp only [Option.some.injEq, eq_comm]
  case h_2 hremove =>
    rw [hremove, if_neg]
    exact nofun

/-- Code is freed with its block, and no other code is. -/
theorem image?_freeAll (l : List UInt32) (j : Jit) (code : Nat) :
    (l.foldl freeBlock j).backend.image? code =
      if ∃ a ∈ l, j.cache.lookup a = some code then none else j.backend.image? code := by
  induction l generalizing j with
  | nil => simp
  | cons a l ih =>
    have hlookup : ∀ y, (j.freeBlock a).cache.lookup y = some code ↔
        y ≠ a ∧ j.cache.lookup y = some code := by
      intro y
      rw [cache_freeBlock, Cache.lookup_remove]
      by_cases hy : y = a <;> simp [hy]
    rw [List.foldl_cons, ih, image?_freeBlock]
    by_cases ha : j.cache.lookup a = some code
    · simp [ha]
    · have hne : ∀ y, j.cache.lookup y = some code → y ≠ a := fun y hy e => ha (e ▸ hy)
      have hsame : (∃ y ∈ l, (j.freeBlock a).cache.lookup y = some code) ↔
          ∃ y ∈ a :: l, j.cache.lookup y = some code := by
        simp only [hlookup]
        constructor
        · intro ⟨y, hy, hcode⟩
          exact ⟨y, List.mem_cons_of_mem a hy, hcode.2⟩
        · intro ⟨y, hy, hcode⟩
          rcases List.mem_cons.mp hy with rfl | hy
          · exact absurd hcode ha
          · exact ⟨y, hy, hne y hcode, hcode⟩
      simp only [hsame, ha, if_false]

/-- After any requests to a new recompiler, dropping a range removes the blocks that share a guest
byte with it, stale ones included, and no others. A block that stays is the block that it was,
without its edges to and from removed blocks, so none mentions a removed block any more. Its code
stays in the backend as it was. -/
theorem invalidateRange_exact (config : Config) {backend : Backend} (files : Files)
    (hbackend : ∀ code, backend.image? code = none) (rs : List (Request σ))
    (hrs : rs.foldlM (Request.serve cpu) (ofConfig config backend files) = .ok j)
    (hsize : ∀ b ∈ j.cache.blocks, 0 < b.size)
    (hwrap : ∀ b ∈ j.cache.blocks, b.addr.toNat + b.size.toNat ≤ 2 ^ 32)
    (hlen : 0 < len) (hend : addr.toNat + len.toNat ≤ 2 ^ 32) :
    (∀ x, (j.invalidateRange addr len).cache.get? x = none ↔
      ∀ b, j.cache.get? x = some b → b.Meets addr len) ∧
    (∀ x b, j.cache.get? x = some b → ¬ b.Meets addr len →
      (j.invalidateRange addr len).cache.get? x =
        some (b.keeping fun a => ((j.invalidateRange addr len).cache.get? a).isSome)) ∧
    (∀ x b, (j.invalidateRange addr len).cache.get? x = some b →
      (∀ dst, some dst ∈ b.links → ((j.invalidateRange addr len).cache.get? dst).isSome) ∧
      ∀ e ∈ b.incoming, ((j.invalidateRange addr len).cache.get? e.source).isSome) ∧
    ∀ x code, (j.invalidateRange addr len).cache.lookup x = some code →
      (j.invalidateRange addr len).backend.image? code = j.backend.image? code := by
  have hempty : (ofConfig config backend files).cache = {} := rfl
  have htidy : Tidy j := (tidy_of_empty hempty).serveAll rs hrs
  have hstep : InStep cpu j :=
    (inStep_empty hempty (Backend.packed_of_free hbackend) hbackend).serveAll rs hrs
  set gone := j.cache.overlapping addr len with hgone
  have hmem : ∀ x b, j.cache.get? x = some b → (x ∈ gone ↔ b.Meets addr len) := by
    intro x b hb
    have hbmem : b ∈ j.cache.blocks := List.mem_of_find?_eq_some hb
    rw [← Block.overlaps_iff_meets (hsize b hbmem) (hwrap b hbmem) hlen hend, hgone,
      htidy.sorted.overlapping_eq, List.mem_map]
    constructor
    · intro ⟨b', hb', haddr⟩
      obtain ⟨hb'mem, hover⟩ := List.mem_filter.mp hb'
      have hget := Cache.get?_of_mem hstep.nodup hb'mem
      rw [haddr, hb] at hget
      rwa [Option.some.inj hget]
    · intro hover
      exact ⟨b, List.mem_filter.mpr ⟨hbmem, hover⟩, j.cache.get?_addr hb⟩
  have hget : ∀ x, (j.invalidateRange addr len).cache.get? x =
      if x ∈ gone then none else (j.cache.get? x).map (·.keeping (· ∉ gone)) := by
    intro x
    unfold invalidateRange
    rw [cache_freeAll]
    exact htidy.symmetric.get?_removeAll gone x
  -- An edge of a block leads to a block, so here only the removed ones are missing.
  have hhere : ∀ y, (j.cache.get? y).isSome →
      decide (y ∉ gone) = ((j.invalidateRange addr len).cache.get? y).isSome := by
    intro y hy
    rw [hget]
    by_cases hgone : y ∈ gone <;> simp [hgone, hy]
  refine ⟨?_, ?_, ?_, ?_⟩
  · intro x
    rw [hget]
    cases hb : j.cache.get? x with
    | none => simp
    | some b => simp [hmem x b hb]
  · intro x b hb hmeets
    obtain ⟨hlinks, hin⟩ := htidy.symmetric.ends hb
    rw [hget, if_neg fun h => hmeets ((hmem x b hb).mp h), hb, Option.map_some]
    congr 1
    apply Block.keeping_congr
    · exact fun dst hdst => hhere dst (hlinks dst hdst)
    · exact fun e he => hhere e.source (hin e he)
  · intro x b hb
    exact (htidy.invalidateRange addr len).symmetric.ends hb
  · intro x code hcode
    have hstays : x ∉ gone ∧ j.cache.lookup x = some code := by
      obtain ⟨b, hb, hbcode⟩ := Cache.lookup_eq_some_iff _ |>.mp hcode
      rw [hget] at hb
      by_cases hx : x ∈ gone
      · rw [if_pos hx] at hb
        cases hb
      · rw [if_neg hx] at hb
        obtain ⟨b', hb', rfl⟩ := Option.map_eq_some_iff.mp hb
        exact ⟨hx, (j.cache.lookup_eq_some_iff).mpr ⟨b', hb', hbcode⟩⟩
    -- No other block has the same code, so it was not freed.
    have hkept : ¬ ∃ a ∈ gone, j.cache.lookup a = some code := by
      intro ⟨a, ha, hacode⟩
      obtain ⟨i, himage, haddr⟩ := hstep.guestAddr_eq hstays.2
      obtain ⟨i', himage', haddr'⟩ := hstep.guestAddr_eq hacode
      rw [himage] at himage'
      cases himage'
      exact hstays.1 (haddr ▸ haddr'.symm ▸ ha)
    unfold invalidateRange
    rw [image?_freeAll, if_neg hkept]

/-- Three blocks in a row; the exit of the first one leads to the second one. -/
def inARow : List (Request Unit) := [.run 100 ⟨Array.replicate 16 0, ()⟩]

/-- The byte at `6` belongs to the second block alone. -/
theorem invalidateRange_exact_inARow : ∃ j,
    inARow.foldlM (Request.serve forward)
        (ofConfig {} (.interp { offsets := forward.offsets }) {}) = .ok j ∧
      (∃ b, j.cache.get? 0 = some b ∧ b.links = [some 4] ∧
        (j.invalidateRange 6 1).cache.get? 0 = some (b.keeping fun a =>
          ((j.invalidateRange 6 1).cache.get? a).isSome)) ∧
      (j.cache.get? 4).isSome ∧ (j.invalidateRange 6 1).cache.get? 4 = none := by
  have hrun : ((inARow.foldlM (Request.serve forward)
      (ofConfig {} (.interp { offsets := forward.offsets }) {})).toOption.map (·.cache.blocks)) =
      some [{ addr := 0, size := 4, code := some 0, hostAddr := 0x7f6000000000, hostSize := 128
              exits := [4], links := [some 4], fast := false },
            { addr := 4, size := 4, code := some 1, hostAddr := 0x7f60000000c0, hostSize := 128
              exits := [8], links := [none], incoming := [⟨0, 0⟩], fast := false },
            { addr := 8, size := 4, code := some 2, hostAddr := 0x7f6000000180, hostSize := 128
              exits := [12], links := [none], fast := false }] := by cbv
  obtain ⟨j, hj, hblocks⟩ := Option.map_eq_some_iff.mp hrun
  have hok : inARow.foldlM (Request.serve forward)
      (ofConfig {} (.interp { offsets := forward.offsets }) {}) = .ok j := by
    cases hx : inARow.foldlM (Request.serve forward)
      (ofConfig {} (.interp { offsets := forward.offsets }) {}) with
    | error e =>
      rw [hx] at hj
      cases hj
    | ok j' =>
      rw [hx] at hj
      cases hj
      rfl
  have hlen : (0 : UInt32) < 1 := by decide
  have hend : (6 : UInt32).toNat + (1 : UInt32).toNat ≤ 2 ^ 32 := by decide
  obtain ⟨hgone, hkept, -, -⟩ := invalidateRange_exact {} {} (fun _ => rfl) inARow hok
    (by simp [hblocks]) (by simp [hblocks]) hlen hend
  have hget : ∀ x, j.cache.get? x = j.cache.blocks.find? fun b => b.addr = x := fun _ => rfl
  rw [hblocks] at hget
  refine ⟨j, hok, ⟨_, (hget 0).trans rfl, rfl, ?_⟩, by simp [hget 4], ?_⟩
  · apply hkept 0 _ ((hget 0).trans rfl)
    rw [← Block.overlaps_iff_meets] <;> decide
  · rw [hgone, hget 4]
    intro b hb
    cases hb
    exact ⟨6, by decide, by decide⟩

end Recompiler.Jit
