import Recompiler.Proofs.Jit.Invalidation

/-!
Blocks by host address. The list of hosts names the runnable blocks and no other, also where an
entry that lost its code once lay in the same memory. As long as runnable blocks share no host
memory, the entry next below an address is therefore the only one that can hold it.
-/
namespace Recompiler.Jit

/-- The host memory of a block that can be run: where it starts, and how long it is. -/
def Block.span? (b : Block) : Option (Nat × Nat) :=
  if b.isStale then none else some (b.hostAddr, b.hostSize)

theorem Block.span?_eq_some_iff {b : Block} {s : Nat × Nat} :
    b.span? = some s ↔ b.isStale = false ∧ (b.hostAddr, b.hostSize) = s := by
  unfold span?
  cases b.isStale <;> simp

/-- Runnable code of the block lies at a host address. -/
def Block.Holds (b : Block) (host : Nat) : Prop :=
  b.isStale = false ∧ b.hostAddr ≤ host ∧ host < b.hostAddr + b.hostSize

/-- Whether a block holds an address is found out unless its code ends behind the last address. -/
theorem Block.containsHost_cases (b : Block) (host : Nat) :
    (∃ r, b.containsHost host = .ok r ∧ (r = true ↔ b.Holds host)) ∨
      b.containsHost host = .error .overflow ∧ b.isStale = false ∧
        UInt64.size ≤ b.hostAddr + b.hostSize := by
  unfold containsHost Holds
  split
  case isTrue hstale => exact .inl ⟨false, rfl, by simp [hstale]⟩
  case isFalse hruns =>
    rw [Bool.not_eq_true] at hruns
    split
    case isTrue hend =>
      exact .inl ⟨_, rfl, by simp [hruns]⟩
    case isFalse hend => exact .inr ⟨rfl, hruns, by omega⟩

namespace Cache

variable {c c' : Cache} {a x : UInt32}

/-! ### The host memory of each block -/

/-- The host memory of the block at an address, if it can be run. -/
def span? (c : Cache) (x : UInt32) : Option (Nat × Nat) := (c.get? x).bind Block.span?

theorem span?_eq_some_iff {s : Nat × Nat} : c.span? x = some s ↔
    ∃ b, c.get? x = some b ∧ b.isStale = false ∧ (b.hostAddr, b.hostSize) = s := by
  unfold span?
  rw [Option.bind_eq_some_iff]
  simp only [Block.span?_eq_some_iff]

/-- Edges have nothing to do with host memory. -/
theorem span?_eq (c : Cache) (x : UInt32) : c.span? x = (c.frame? x).bind Block.span? := by
  unfold span? frame?
  cases c.get? x <;> rfl

theorem span?_congr (h : c'.frame? x = c.frame? x) : c'.span? x = c.span? x := by
  rw [span?_eq, span?_eq, h]

theorem span?_of_lookup_eq_none (h : c.lookup x = none) : c.span? x = none := by
  unfold lookup at h
  unfold span?
  cases hb : c.get? x with
  | none => rfl
  | some b =>
    rw [hb] at h
    have hstale : b.isStale = true := by
      unfold Block.isStale
      rw [show b.code = none from h]
      rfl
    simp [Block.span?, hstale]

theorem span?_invalidate (c : Cache) (a x : UInt32) :
    (c.invalidate a).1.span? x = if x = a then none else c.span? x := by
  by_cases hx : x = a
  · rw [if_pos hx]
    apply span?_of_lookup_eq_none
    rw [lookup_invalidate, if_pos hx]
  · rw [if_neg hx]
    exact span?_congr (frame?_invalidate hx)

theorem span?_remove (c : Cache) (a x : UInt32) :
    (c.remove a).1.span? x = if x = a then none else c.span? x := by
  have hcut := c.span?_invalidate a x
  unfold span? at hcut ⊢
  rw [remove_eq, get?_forget]
  by_cases hx : x = a
  · rw [if_pos hx, if_pos hx]
    rfl
  · rw [if_neg hx, hcut]

theorem span?_insert {b : Block} (h : c.insert b = .ok c') (x : UInt32) :
    c'.span? x = if x = b.addr then b.span? else c.span? x := by
  unfold span?
  rw [get?_insert c h]
  split <;> rfl

theorem frame?_connect (c : Cache) (e : Edge) (old : Option UInt32) (dst x : UInt32) :
    (c.connect e old dst).frame? x = c.frame? x := by
  have hset : (c.modify e.source (·.setLink e.slot (some dst))).frame? x = c.frame? x := by
    apply frame?_modify
    intro b
    simp [Block.frame, Block.setLink, List.map_set]
  unfold connect
  cases old with
  | none => rw [frame?_modify, hset]; exact fun _ => rfl
  | some old => rw [frame?_modify, frame?_dropIncoming, hset]; exact fun _ => rfl

theorem span?_link (c : Cache) (source : UInt32) (slot : Nat) (dst x : UInt32) :
    (c.link source slot dst).span? x = c.span? x := by
  obtain h | ⟨old, -, h⟩ := c.link_cases source slot dst
  · rw [h]
  · rw [h]
    exact span?_congr (c.frame?_connect _ old dst x)

/-! ### The list of hosts -/

theorem hosts_dropIncoming (c : Cache) (dst : UInt32) (e : Edge) :
    (c.dropIncoming dst e).hosts = c.hosts := rfl

theorem hosts_dropLink (c : Cache) (e : Edge) (dst : UInt32) :
    (c.dropLink e dst).hosts = c.hosts := rfl

theorem hosts_foldl {α : Type} {op : Cache → α → Cache} (hop : ∀ c a, (op c a).hosts = c.hosts)
    (l : List α) (c : Cache) : (l.foldl op c).hosts = c.hosts := by
  induction l generalizing c with
  | nil => rfl
  | cons a l ih => rw [List.foldl_cons, ih, hop]

theorem hosts_link (c : Cache) (source : UInt32) (slot : Nat) (dst : UInt32) :
    (c.link source slot dst).hosts = c.hosts := by
  obtain h | ⟨old, -, h⟩ := c.link_cases source slot dst
  · rw [h]
  · rw [h]
    cases old <;> rfl

/-- A block that loses its code leaves the list, and a stale one is not in it. -/
theorem mem_hosts_invalidate (c : Cache) (a : UInt32) (host : Nat) (x : UInt32) :
    (host, x) ∈ (c.invalidate a).1.hosts ↔
      (host, x) ∈ c.hosts ∧ ¬ (x = a ∧ ∃ size, c.span? a = some (host, size)) := by
  cases h : c.get? a with
  | none =>
    have hspan : c.span? a = none := by
      unfold span?
      rw [h]
      rfl
    rw [invalidate_of_absent h, hspan]
    simp
  | some b =>
    have haddr : b.addr = a := c.get?_addr h
    have hspan : c.span? a = b.span? := by
      unfold span?
      rw [h]
      rfl
    have hhosts : (c.invalidate a).1.hosts = (c.dropHost b).hosts := by
      rw [invalidate_eq h, hosts_foldl fun c o => hosts_dropIncoming c _ _,
        hosts_foldl fun c e => hosts_dropLink c _ _]
      rfl
    rw [hhosts, hspan]
    unfold dropHost Block.span?
    cases b.isStale with
    | true => simp
    | false =>
      have hpair : (host, x) = (b.hostAddr, a) ↔
          x = a ∧ ∃ size, some (b.hostAddr, b.hostSize) = some (host, size) := by
        simp [and_comm, eq_comm]
      simp only [Bool.false_eq_true, if_false, List.mem_filter, haddr,
        decide_eq_true_eq, ne_eq, hpair]

/-! ### The nearest entry -/

/-- The scan ends with the highest entry of the list, whatever it started from. -/
theorem foldl_higher (l : List (Nat × UInt32)) (best : Option (Nat × UInt32)) :
    (∀ h ∈ l, ∃ t, l.foldl higher best = some t ∧ h.1 ≤ t.1) ∧
    (∀ b, best = some b → ∃ t, l.foldl higher best = some t ∧ b.1 ≤ t.1) ∧
    ∀ t, l.foldl higher best = some t → t ∈ l ∨ best = some t := by
  induction l generalizing best with
  | nil => exact ⟨by simp, fun b hb => ⟨b, hb, Nat.le_refl _⟩, fun t ht => .inr ht⟩
  | cons y l ih =>
    obtain ⟨hlist, hbest, hmem⟩ := ih (higher best y)
    have hstep : ∃ z, higher best y = some z ∧ y.1 ≤ z.1 ∧ (∀ b, best = some b → b.1 ≤ z.1) ∧
        (z = y ∨ best = some z) := by
      cases best with
      | none => exact ⟨y, rfl, Nat.le_refl _, by simp, .inl rfl⟩
      | some b =>
        unfold higher
        by_cases hlt : b.1 < y.1
        · exact ⟨y, if_pos hlt, Nat.le_refl _, by simp; omega, .inl rfl⟩
        · exact ⟨b, if_neg hlt, by omega, by simp, .inr rfl⟩
    obtain ⟨z, hz, hy, hb, hzmem⟩ := hstep
    obtain ⟨t, ht, hzt⟩ := hbest z hz
    rw [List.foldl_cons]
    refine ⟨?_, ?_, ?_⟩
    · intro h hh
      rcases List.mem_cons.mp hh with rfl | hh
      · exact ⟨t, ht, by omega⟩
      · exact hlist h hh
    · intro b hbst
      have hle := hb b hbst
      exact ⟨t, ht, by omega⟩
    · intro t' ht'
      rcases hmem t' ht' with hin | hin
      · exact .inl (List.mem_cons_of_mem y hin)
      · rw [hz] at hin
        cases hin
        rcases hzmem with rfl | hold
        · exact .inl List.mem_cons_self
        · exact .inr hold

/-! ### Blocks that lie apart -/

/-- The list of hosts names the runnable blocks, and each of them has host memory of its own. -/
structure Indexed (c : Cache) : Prop where
  mem_hosts : ∀ host x, (host, x) ∈ c.hosts ↔ ∃ size, c.span? x = some (host, size)
  nonempty : ∀ x s, c.span? x = some s → 0 < s.2
  apart : ∀ x y s t, c.span? x = some s → c.span? y = some t → x ≠ y →
    ∀ host, ¬ ((s.1 ≤ host ∧ host < s.1 + s.2) ∧ (t.1 ≤ host ∧ host < t.1 + t.2))

/-- A block has host memory, and none of it holds a block of the cache that can be run. -/
structure Fits (c : Cache) (b : Block) : Prop where
  nonempty : 0 < b.hostSize
  apart : ∀ d ∈ c.blocks, ∀ host, ¬ (b.Holds host ∧ d.Holds host)

/-- A block whose memory ends before that of each other one starts, or starts behind its end. -/
theorem Fits.of_le {b : Block} (hpos : 0 < b.hostSize) (h : ∀ d ∈ c.blocks, d.isStale = true ∨
    b.hostAddr + b.hostSize ≤ d.hostAddr ∨ d.hostAddr + d.hostSize ≤ b.hostAddr) : c.Fits b where
  nonempty := hpos
  apart d hd host := by
    intro ⟨⟨_, hlo, hhi⟩, hruns, hlo', hhi'⟩
    obtain hstale | hle | hle := h d hd
    · rw [hruns] at hstale
      cases hstale
    · omega
    · omega

theorem indexed_empty : Indexed {} where
  mem_hosts host x := by
    constructor
    · intro h
      cases h
    · intro ⟨size, h⟩
      cases h
  nonempty x s h := by cases h
  apart x y s t h := by cases h

/-- What is asked of the blocks of a cache with the same host memory, less some of it. -/
theorem Indexed.of_span? (h : c.Indexed)
    (hsub : ∀ x s, c'.span? x = some s → c.span? x = some s)
    (hhosts : ∀ host x, (host, x) ∈ c'.hosts ↔ ∃ size, c'.span? x = some (host, size)) :
    c'.Indexed where
  mem_hosts := hhosts
  nonempty x s hs := h.nonempty x s (hsub x s hs)
  apart x y s t hs ht := h.apart x y s t (hsub x s hs) (hsub y t ht)

theorem Indexed.link (h : c.Indexed) (source : UInt32) (slot : Nat) (dst : UInt32) :
    (c.link source slot dst).Indexed := by
  apply h.of_span?
  · intro x s hs
    rwa [span?_link] at hs
  · intro host x
    rw [hosts_link, span?_link]
    exact h.mem_hosts host x

theorem Indexed.mem_hosts_invalidate (h : c.Indexed) (a : UInt32) (host : Nat) (x : UInt32) :
    (host, x) ∈ (c.invalidate a).1.hosts ↔
      ∃ size, (c.invalidate a).1.span? x = some (host, size) := by
  rw [Cache.mem_hosts_invalidate, h.mem_hosts, span?_invalidate]
  by_cases hx : x = a
  · rw [hx]
    simp
  · simp [hx]

theorem Indexed.invalidate (h : c.Indexed) (a : UInt32) : (c.invalidate a).1.Indexed := by
  apply h.of_span?
  · intro x s hs
    rw [span?_invalidate] at hs
    exact (ite_eq_iff.mp hs).elim (fun hn => absurd hn.2 (by simp)) And.right
  · exact h.mem_hosts_invalidate a

theorem Indexed.remove (h : c.Indexed) (a : UInt32) : (c.remove a).1.Indexed := by
  have hspan : ∀ x, (c.remove a).1.span? x = (c.invalidate a).1.span? x := by
    intro x
    rw [span?_remove, span?_invalidate]
  apply (h.invalidate a).of_span?
  · intro x s hs
    rwa [hspan] at hs
  · intro host x
    rw [hspan]
    exact h.mem_hosts_invalidate a host x

/-- A block is put into memory that no entry of the list leads to, so the list only grows. -/
theorem Indexed.insert {b : Block} (h : c.Indexed) (hfits : b.isStale = false → c.Fits b)
    (hb : c.insert b = .ok c') : c'.Indexed := by
  obtain ⟨⟨-, -, habsent⟩, hc'⟩ := c.insert_eq_ok_iff.mp hb
  have hold : c.span? b.addr = none := by
    unfold span?
    rw [habsent]
    rfl
  cases hstale : b.isStale with
  | true =>
    have hspan : ∀ x, c'.span? x = c.span? x := by
      intro x
      rw [span?_insert hb]
      by_cases hx : x = b.addr
      · rw [if_pos hx, hx, hold, Block.span?, hstale]
        rfl
      · rw [if_neg hx]
    have hhosts : c'.hosts = c.hosts := by
      rw [hc', hstale]
      rfl
    apply h.of_span?
    · intro x s hs
      rwa [hspan] at hs
    · intro host x
      rw [hhosts, hspan]
      exact h.mem_hosts host x
  | false =>
    have hfit := hfits hstale
    have hspan : ∀ x, c'.span? x =
        if x = b.addr then some (b.hostAddr, b.hostSize) else c.span? x := by
      intro x
      rw [span?_insert hb, Block.span?, hstale]
      rfl
    have hclear : ∀ x s, c.span? x = some s → ∀ host,
        ¬ ((b.hostAddr ≤ host ∧ host < b.hostAddr + b.hostSize) ∧
          (s.1 ≤ host ∧ host < s.1 + s.2)) := by
      intro x s hs host hboth
      obtain ⟨d, hd, hruns, rfl⟩ := span?_eq_some_iff.mp hs
      apply hfit.apart d (List.mem_of_find?_eq_some hd) host
      exact ⟨⟨hstale, hboth.1⟩, hruns, hboth.2⟩
    -- Two entries for the same host address would both hold that address.
    have hfresh : ∀ e ∈ c.hosts, e.1 ≠ b.hostAddr := by
      intro e he heq
      obtain ⟨size, hs⟩ := (h.mem_hosts e.1 e.2).mp he
      have hpos := h.nonempty e.2 _ hs
      have hpos' := hfit.nonempty
      exact hclear e.2 _ hs b.hostAddr (by simp only; omega)
    have hhosts : c'.hosts = (b.hostAddr, b.addr) :: c.hosts := by
      rw [hc', hstale]
      simp only [Bool.false_eq_true, if_false]
      rw [List.filter_eq_self.mpr]
      intro e he
      exact decide_eq_true (hfresh e he)
    constructor
    · intro host x
      rw [hhosts, hspan, List.mem_cons, h.mem_hosts]
      by_cases hx : x = b.addr
      · rw [hx, hold]
        simp [eq_comm]
      · simp [hx]
    · intro x s hs
      rw [hspan] at hs
      by_cases hx : x = b.addr
      · rw [if_pos hx] at hs
        cases hs
        exact hfit.nonempty
      · rw [if_neg hx] at hs
        exact h.nonempty x s hs
    · intro x y s t hs ht hne host
      rw [hspan] at hs ht
      by_cases hx : x = b.addr
      · have hy : ¬ y = b.addr := fun hy => hne (hx.trans hy.symm)
        rw [if_pos hx] at hs
        rw [if_neg hy] at ht
        cases hs
        exact hclear y t ht host
      · rw [if_neg hx] at hs
        by_cases hy : y = b.addr
        · rw [if_pos hy] at ht
          cases ht
          exact fun hboth => hclear x s hs host hboth.symm
        · rw [if_neg hy] at ht
          exact h.apart x y s t hs ht hne host

/-- The entry next below an address is that of the block that holds the address, if one does: an
entry between them would lie in the block. -/
theorem Indexed.nearest (h : c.Indexed) {host : Nat} {a : UInt32} {b : Block}
    (hb : c.get? a = some b) (hin : b.Holds host) :
    ∃ start, (c.hosts.filter fun e => e.1 ≤ host).foldl higher none = some (start, a) := by
  obtain ⟨hruns, hlo, hhi⟩ := hin
  have hspan : c.span? a = some (b.hostAddr, b.hostSize) :=
    span?_eq_some_iff.mpr ⟨b, hb, hruns, rfl⟩
  have hentry : (b.hostAddr, a) ∈ c.hosts := (h.mem_hosts _ _).mpr ⟨_, hspan⟩
  obtain ⟨hlist, -, hmem⟩ := foldl_higher (c.hosts.filter fun e => e.1 ≤ host) none
  obtain ⟨t, ht, hle⟩ := hlist _ (List.mem_filter.mpr ⟨hentry, decide_eq_true hlo⟩)
  have htin : t ∈ c.hosts ∧ t.1 ≤ host := by
    have hin := (hmem t ht).resolve_right (by simp)
    exact ⟨(List.mem_filter.mp hin).1, of_decide_eq_true (List.mem_filter.mp hin).2⟩
  have hsame : t.2 = a := by
    by_contra hne
    obtain ⟨size, hs⟩ := (h.mem_hosts t.1 t.2).mp htin.1
    have hpos := h.nonempty _ _ hs
    exact h.apart t.2 a _ _ hs hspan hne t.1 (by simp only at hle hpos ⊢; omega)
  exact ⟨t.1, ht.trans (congrArg some (Prod.ext rfl hsame))⟩

/-- A block that the scan ends with is in the cache, and starts at or below the address. -/
theorem Indexed.exists_nearest (h : c.Indexed) {host start : Nat} {a : UInt32}
    (hfound : (c.hosts.filter fun e => e.1 ≤ host).foldl higher none = some (start, a)) :
    ∃ b, c.get? a = some b ∧ b.isStale = false ∧ b.hostAddr ≤ host := by
  obtain ⟨-, -, hmem⟩ := foldl_higher (c.hosts.filter fun e => e.1 ≤ host) none
  have hin := (hmem _ hfound).resolve_right (by simp)
  obtain ⟨hentry, hle⟩ := List.mem_filter.mp hin
  obtain ⟨size, hspan⟩ := (h.mem_hosts start a).mp hentry
  obtain ⟨b, hb, hruns, hsame⟩ := span?_eq_some_iff.mp hspan
  cases hsame
  exact ⟨b, hb, hruns, of_decide_eq_true hle⟩

theorem Indexed.lookupHost_cases (h : c.Indexed) (host : Nat) :
    (∃ found, c.lookupHost host = .ok found ∧
      ∀ a, found = some a ↔ ∃ b, c.get? a = some b ∧ b.Holds host) ∨
    c.lookupHost host = .error .overflow ∧ ∃ a b, c.get? a = some b ∧ b.isStale = false ∧
      b.hostAddr ≤ host ∧ UInt64.size ≤ b.hostAddr + b.hostSize := by
  unfold lookupHost
  split
  case h_1 hnone =>
    refine .inl ⟨none, rfl, fun a => ⟨nofun, ?_⟩⟩
    intro ⟨b, hb, hin⟩
    obtain ⟨start, hsome⟩ := h.nearest hb hin
    rw [hnone] at hsome
    cases hsome
  case h_2 start x hsome =>
    obtain ⟨b, hb, hruns, hlo⟩ := h.exists_nearest hsome
    -- If any block holds the address, it is this one.
    have honly : ∀ a d, c.get? a = some d → d.Holds host → a = x := by
      intro a d hd hin
      obtain ⟨start', hsome'⟩ := h.nearest hd hin
      rw [hsome] at hsome'
      cases hsome'
      rfl
    rw [hb]
    dsimp only
    obtain ⟨r, hr, hiff⟩ | ⟨hfault, -, hend⟩ := b.containsHost_cases host
    · rw [hr]
      refine .inl ⟨if r then some x else none, rfl, fun a => ⟨?_, ?_⟩⟩
      · intro hfound
        obtain ⟨htrue, hx⟩ := Option.ite_none_right_eq_some.mp hfound
        cases hx
        exact ⟨b, hb, hiff.mp htrue⟩
      · intro ⟨d, hd, hin⟩
        obtain rfl := honly a d hd hin
        rw [hb] at hd
        cases hd
        rw [if_pos (hiff.mpr hin)]
    · rw [hfault]
      exact .inr ⟨rfl, x, b, hb, hruns, hlo, hend⟩

/-! ### Sequences of operations -/

theorem Indexed.serve (h : c.Indexed) (r : Request)
    (hfits : ∀ b, r = .insert b → b.isStale = false → c.Fits b) (hr : r.serve c = .ok c') :
    c'.Indexed := by
  cases r with
  | insert b => exact h.insert (hfits b rfl) hr
  | link source slot dst =>
    cases hr
    exact h.link source slot dst
  | invalidate a =>
    cases hr
    exact h.invalidate a
  | remove a =>
    cases hr
    exact h.remove a
  | clear =>
    cases hr
    exact indexed_empty

/-- Each runnable block is inserted into host memory that holds no block that can be run then. -/
def Apart (c : Cache) : List Request → Prop
  | [] => True
  | r :: rs => (∀ b, r = .insert b → b.isStale = false → c.Fits b) ∧
      ∀ d, r.serve c = .ok d → d.Apart rs

theorem Apart.cons {r : Request} {rs : List Request} (hr : r.serve c = .ok c')
    (hfits : ∀ b, r = .insert b → b.isStale = false → c.Fits b) (hrest : c'.Apart rs) :
    c.Apart (r :: rs) := by
  constructor
  · exact hfits
  · intro d hd
    have hsame : (Except.ok c' : Except Fault Cache) = .ok d := hr.symm.trans hd
    cases hsame
    exact hrest

theorem Apart.insert {b : Block} {rs : List Request} (hb : c.insert b = .ok c')
    (hfits : b.isStale = false → c.Fits b) (hrest : c'.Apart rs) : c.Apart (.insert b :: rs) := by
  have hserve : (Request.insert b).serve c = .ok c' := hb
  apply Apart.cons hserve _ hrest
  intro b' heq
  cases heq
  exact hfits

theorem Indexed.serveAll (h : c.Indexed) (rs : List Request) (hapart : c.Apart rs)
    (hrs : rs.foldlM Request.serve c = .ok c') : c'.Indexed := by
  induction rs generalizing c with
  | nil =>
    cases hrs
    exact h
  | cons r rs ih =>
    rw [List.foldlM_cons] at hrs
    obtain ⟨d, hr, hrs⟩ := Interp.bind_eq_ok hrs
    exact ih (h.serve r hapart.1 hr) (hapart.2 d hr) hrs

/-- After any requests that put runnable blocks into free host memory, the look-up of a host address
finds the runnable block whose code lies there, and nothing where there is none. Only where a
runnable block that starts at or below the address ends behind the last address can the look-up
fail. -/
theorem lookupHost_eq_some_iff (rs : List Request) (hapart : Apart {} rs)
    (hrs : rs.foldlM Request.serve {} = .ok c) (host : Nat) :
    (∃ found, c.lookupHost host = .ok found ∧ ∀ a, found = some a ↔
      ∃ b, c.get? a = some b ∧ b.isStale = false ∧ b.hostAddr ≤ host ∧
        host < b.hostAddr + b.hostSize) ∨
    c.lookupHost host = .error .overflow ∧ ∃ a b, c.get? a = some b ∧ b.isStale = false ∧
      b.hostAddr ≤ host ∧ UInt64.size ≤ b.hostAddr + b.hostSize :=
  (indexed_empty.serveAll rs hapart hrs).lookupHost_cases host

/-- A block at `0x30` takes part of the host memory of the one at `0x10`, which is stale by then and
later compiled anew. -/
def reused : List Request :=
  [.insert (.fresh 0x10 8 3 0x1000 64 [0x20] false),
    .insert (.fresh 0x20 4 4 0x1040 64 [0x10] false),
   .link 0x10 0 0x20, .invalidate 0x10, .insert (.fresh 0x30 4 5 0x1010 32 [0x10] false),
   .remove 0x10, .insert (.fresh 0x10 8 6 0x1000 16 [0x20] false)]

theorem lookupHost_eq_some_iff_reused : Apart {} reused ∧
    ∃ c, reused.foldlM Request.serve {} = .ok c ∧ c.lookupHost 0x1020 = .ok (some 0x30) ∧
      c.lookupHost 0x1005 = .ok (some 0x10) ∧ c.lookupHost 0x1035 ≠ .ok (some 0x30) := by
  have hapart : Apart {} reused := by
    apply Apart.insert rfl fun _ => .of_le (by decide) (by decide)
    apply Apart.insert rfl fun _ => .of_le (by decide) (by decide)
    apply Apart.cons rfl (by simp)
    apply Apart.cons rfl (by simp)
    apply Apart.insert rfl fun _ => .of_le (by decide) (by decide)
    apply Apart.cons rfl (by simp)
    apply Apart.insert rfl fun _ => .of_le (by decide) (by decide)
    exact trivial
  let c : Cache :=
    { blocks := [.fresh 0x10 8 6 0x1000 16 [0x20] false, .fresh 0x20 4 4 0x1040 64 [0x10] false,
                 .fresh 0x30 4 5 0x1010 32 [0x10] false]
      hosts := [(0x1000, 0x10), (0x1010, 0x30), (0x1040, 0x20)] }
  have hrun : reused.foldlM Request.serve {} = .ok c := rfl
  -- All of the blocks end far below the last address.
  have hlow : ∀ b ∈ c.blocks, b.hostAddr + b.hostSize < UInt64.size := by decide
  have hfind : ∀ host, ∃ found, c.lookupHost host = .ok found ∧ ∀ a, found = some a ↔
      ∃ b, c.get? a = some b ∧ b.isStale = false ∧ b.hostAddr ≤ host ∧
        host < b.hostAddr + b.hostSize := by
    intro host
    apply (lookupHost_eq_some_iff reused hapart hrun host).resolve_right
    rintro ⟨-, a, b, hb, -, -, hend⟩
    have hlt := hlow b (List.mem_of_find?_eq_some hb)
    omega
  have hholds : ∀ host a, (∃ b, c.get? a = some b ∧ b.isStale = false ∧ b.hostAddr ≤ host ∧
      host < b.hostAddr + b.hostSize) → c.lookupHost host = .ok (some a) := by
    intro host a hin
    obtain ⟨found, hfound, hiff⟩ := hfind host
    rw [hfound, (hiff a).mpr hin]
  refine ⟨hapart, c, hrun, ?_, ?_, ?_⟩
  · exact hholds _ _ ⟨_, rfl, rfl, by decide, by decide⟩
  · exact hholds _ _ ⟨_, rfl, rfl, by decide, by decide⟩
  · intro hfound
    obtain ⟨found, hfound', hiff⟩ := hfind 0x1035
    rw [hfound] at hfound'
    cases hfound'
    obtain ⟨b, hb, -, -, hlt⟩ := (hiff 0x30).mp rfl
    cases hb
    exact absurd hlt (by decide)

/-- A block with the last sixteen bytes of the address space. -/
def topmost : Block := .fresh 0x10 4 0 0xfffffffffffffff0 16 [] false

/-- The end of a block has to be an address, so the look-up of the topmost one fails. -/
theorem lookupHost_topmost : Apart {} [.insert topmost] ∧
    ∃ c, [Request.insert topmost].foldlM Request.serve {} = .ok c ∧ c.get? 0x10 = some topmost ∧
      topmost.Holds 0xfffffffffffffff4 ∧ c.lookupHost 0xfffffffffffffff4 = .error .overflow := by
  refine ⟨?_, { blocks := [topmost], hosts := [(0xfffffffffffffff0, 0x10)] }, rfl, rfl, ?_, ?_⟩
  · exact Apart.insert rfl (fun _ => .of_le (by decide) (by decide)) trivial
  · exact ⟨rfl, by decide, by decide⟩
  · rfl

end Cache
end Recompiler.Jit
