import Recompiler.Proofs.IR.Fragment

/-!
The instructions of a block as a list. A block holds a list if its links in both directions run
along the list; inserting and removing an instruction are then insertion into the list and removal
from it.
-/
namespace Recompiler.IR.Fragment

/-- The block `b` holds exactly the instructions of `l`, in this order. -/
structure Chain (f : Fragment) (b : BlockId) (l : List InstrId) : Prop where
  block_lt : b.index < f.blocks.size
  head_eq : (f.block b).head = l.head?
  tail_eq : (f.block b).tail = l.getLast?
  prev_eq : ∀ l₁ i l₂, l = l₁ ++ i :: l₂ → (f.instr i).prev = l₁.getLast?
  next_eq : ∀ l₁ i l₂, l = l₁ ++ i :: l₂ → (f.instr i).next = l₂.head?
  nodup : l.Nodup
  lt : ∀ i ∈ l, i.index < f.instrs.size
  block_eq : ∀ i ∈ l, (f.instr i).block = b
  live : ∀ i ∈ l, (f.instr i).removed = false

variable {f f' : Fragment} {b : BlockId} {l l₁ l₂ : List InstrId} {i : InstrId}

/-! ### Walking -/

theorem Chain.walk_next (h : Chain f b l) (l₁ : List InstrId) (e : l = l₁ ++ l₂) {n : Nat}
    (hn : l₂.length ≤ n) :
    walk (fun i => (f.instr i).next) n l₂.head? = l₂ := by
  induction l₂ generalizing l₁ n with
  | nil => cases n <;> rfl
  | cons i l₂ ih =>
    obtain ⟨n, rfl⟩ :=
      Nat.exists_eq_add_of_le' (Nat.le_trans (Nat.succ_le_succ l₂.length.zero_le) hn)
    rw [List.head?_cons, walk, h.next_eq l₁ i l₂ e,
      ih (l₁ ++ [i]) (by simp [e]) (by simpa using hn)]

theorem Chain.walk_prev (h : Chain f b l) (l₂ : List InstrId) (e : l = l₁ ++ l₂) {n : Nat}
    (hn : l₁.length ≤ n) :
    walk (fun i => (f.instr i).prev) n l₁.getLast? = l₁.reverse := by
  generalize hr : l₁.reverse = r
  obtain rfl : l₁ = r.reverse := by rw [← hr, List.reverse_reverse]
  induction r generalizing l₂ n with
  | nil => cases n <;> rfl
  | cons i r ih =>
    obtain ⟨n, rfl⟩ : ∃ k, n = k + 1 := Nat.exists_eq_succ_of_ne_zero (by simp at hn; omega)
    rw [List.getLast?_reverse, List.head?_cons, walk,
      h.prev_eq r.reverse i l₂ (by simpa using e),
      ih (i :: l₂) (by simpa using e) (by simpa using hn) (by simp)]

theorem Chain.length_le (h : Chain f b l) : l.length ≤ f.instrs.size := by
  have hnodup : (l.map (·.index)).Nodup :=
    List.Pairwise.map _ (fun _ _ hne e => hne (InstrId.ext_index e)) h.nodup
  have hsub : l.map (·.index) ⊆ List.range f.instrs.size := by
    intro n hn
    obtain ⟨i, hi, rfl⟩ := List.mem_map.mp hn
    exact List.mem_range.mpr (h.lt i hi)
  simpa using hnodup.length_le_of_subset hsub

theorem Chain.blockInstrs_eq (h : Chain f b l) : f.blockInstrs b = l := by
  rw [blockInstrs, h.head_eq]
  exact h.walk_next [] rfl h.length_le

theorem Chain.blockInstrsBackward_eq (h : Chain f b l) : f.blockInstrsBackward b = l.reverse := by
  rw [blockInstrsBackward, h.tail_eq]
  exact h.walk_prev [] (by simp) h.length_le

/-- A chain depends only on the links of its instructions. -/
theorem Chain.congr (h : Chain f b l) (hb : b.index < f'.blocks.size)
    (hhead : (f'.block b).head = (f.block b).head) (htail : (f'.block b).tail = (f.block b).tail)
    (hlt : ∀ i ∈ l, i.index < f'.instrs.size)
    (hi : ∀ i ∈ l, (f'.instr i).prev = (f.instr i).prev ∧ (f'.instr i).next = (f.instr i).next ∧
      (f'.instr i).block = (f.instr i).block ∧ (f'.instr i).removed = (f.instr i).removed) :
    Chain f' b l where
  block_lt := hb
  head_eq := hhead.trans h.head_eq
  tail_eq := htail.trans h.tail_eq
  prev_eq l₁ i l₂ e := (hi i (by simp [e])).1.trans (h.prev_eq l₁ i l₂ e)
  next_eq l₁ i l₂ e := (hi i (by simp [e])).2.1.trans (h.next_eq l₁ i l₂ e)
  nodup := h.nodup
  lt := hlt
  block_eq i hm := (hi i hm).2.2.1.trans (h.block_eq i hm)
  live i hm := (hi i hm).2.2.2.trans (h.live i hm)

/-! ### Insertion -/

/-- The links of an instruction once `i` stands between `after` and `next`. -/
def relink (after next : Option InstrId) (i j : InstrId) (ins : Instr) : Instr :=
  if j = i then { ins with prev := after, next := next }
  else
    { ins with
      prev := if next = some j then some i else ins.prev
      next := if after = some j then some i else ins.next }

theorem instr_linkAfter {after next : Option InstrId}
    (hnext : f.following b after = next)
    (hi : i.index < f.instrs.size) (ha : ∀ a, after = some a → a.index < f.instrs.size ∧ a ≠ i)
    (hn : ∀ n, next = some n → n.index < f.instrs.size ∧ n ≠ i) (j : InstrId) :
    (f.linkAfter b after i).instr j = relink after next i j (f.instr j) := by
  unfold linkAfter
  rw [hnext, relink]
  cases after with
  | none =>
    cases next with
    | none =>
      simp only [instr_modifyBlock, instr_modifyInstr]
      by_cases hj : j = i <;> simp [hj, hi]
    | some n =>
      obtain ⟨hn, hni⟩ := hn n rfl
      simp only [instr_modifyBlock, instr_modifyInstr, size_instrs_modifyBlock,
        size_instrs_modifyInstr]
      by_cases hj : j = i
      · subst hj
        simp [hi, Ne.symm hni]
      · by_cases hjn : j = n
        · simp [hjn, hn, hni]
        · simp [hj, hjn, Ne.symm hjn]
  | some a =>
    obtain ⟨ha, hai⟩ := ha a rfl
    cases next with
    | none =>
      simp only [instr_modifyBlock, instr_modifyInstr, size_instrs_modifyInstr]
      by_cases hj : j = i
      · subst hj
        simp [hi, Ne.symm hai]
      · by_cases hja : j = a
        · simp [hja, ha, hai]
        · simp [hj, hja, Ne.symm hja]
    | some n =>
      obtain ⟨hn, hni⟩ := hn n rfl
      simp only [instr_modifyInstr, size_instrs_modifyInstr]
      by_cases hj : j = i
      · subst hj
        simp [hi, Ne.symm hai, Ne.symm hni]
      · by_cases hja : j = a
        · by_cases hjn : j = n
          · subst hja
            simp [hjn, hn, hni]
          · subst hja
            simp [hj, hjn, Ne.symm hjn, ha]
        · by_cases hjn : j = n
          · simp [hjn, hn, hni, hjn ▸ hja, Ne.symm (hjn ▸ hja)]
          · simp [hj, hja, hjn, Ne.symm hja, Ne.symm hjn]

theorem block_linkAfter {after next : Option InstrId}
    (hnext : f.following b after = next)
    (hb : b.index < f.blocks.size) (c : BlockId) :
    (f.linkAfter b after i).block c =
      if c = b then
        { f.block c with
          head := if after = none then some i else (f.block c).head
          tail := if next = none then some i else (f.block c).tail }
      else f.block c := by
  unfold linkAfter
  rw [hnext]
  cases after <;> cases next <;>
    simp only [block_modifyInstr, block_modifyBlock, size_blocks_modifyBlock,
      size_blocks_modifyInstr] <;>
    by_cases hc : c = b <;> simp [hc, hb]

@[simp] theorem size_instrs_linkAfter (after : Option InstrId) :
    (f.linkAfter b after i).instrs.size = f.instrs.size := by
  unfold linkAfter
  dsimp only
  split <;> split <;> simp

@[simp] theorem size_blocks_linkAfter (after : Option InstrId) :
    (f.linkAfter b after i).blocks.size = f.blocks.size := by
  unfold linkAfter
  dsimp only
  split <;> split <;> simp

theorem Chain.following_eq (h : Chain f b (l₁ ++ l₂)) :
    f.following b l₁.getLast? = l₂.head? := by
  rcases List.eq_nil_or_concat l₁ with rfl | ⟨l, a, rfl⟩
  · exact h.head_eq
  · rw [List.concat_eq_append, List.getLast?_concat]
    exact h.next_eq l a l₂ (by simp)

/-- What `linkAfter` does to the links of the instructions of a chain. -/
theorem Chain.instr_linkAfter (h : Chain f b (l₁ ++ l₂)) (hi : i.index < f.instrs.size)
    (hnew : i ∉ l₁ ++ l₂) (j : InstrId) :
    (f.linkAfter b l₁.getLast? i).instr j = relink l₁.getLast? l₂.head? i j (f.instr j) := by
  refine Fragment.instr_linkAfter h.following_eq hi (fun a ha => ?_) (fun n hn => ?_) j
  · have hm : a ∈ l₁ ++ l₂ := List.mem_append_left _ (List.mem_of_getLast? ha)
    exact ⟨h.lt a hm, fun e => hnew (e ▸ hm)⟩
  · have hm : n ∈ l₁ ++ l₂ := List.mem_append_right _ (List.mem_of_head? hn)
    exact ⟨h.lt n hm, fun e => hnew (e ▸ hm)⟩

/-- Linking an instruction into a block inserts it into the list. -/
theorem Chain.linkAfter (h : Chain f b (l₁ ++ l₂)) (hi : i.index < f.instrs.size)
    (hnew : i ∉ l₁ ++ l₂) (hb : (f.instr i).block = b) (hlive : (f.instr i).removed = false) :
    Chain (f.linkAfter b l₁.getLast? i) b (l₁ ++ i :: l₂) := by
  have hinstr := h.instr_linkAfter hi hnew
  have hblock := block_linkAfter (i := i) h.following_eq h.block_lt b
  have hnodup : (l₁ ++ i :: l₂).Nodup := by
    rw [List.perm_middle.nodup_iff, List.nodup_cons]
    exact ⟨hnew, h.nodup⟩
  have hold : ∀ j ∈ l₁ ++ l₂, j ≠ i := fun j hj e => hnew (e ▸ hj)
  -- An instruction of the longer list is `i`, or lies in front of it, or behind it.
  have hsplit : ∀ a j c, l₁ ++ i :: l₂ = a ++ j :: c →
      (a = l₁ ∧ j = i ∧ c = l₂) ∨ (∃ d, l₁ = a ++ j :: d ∧ c = d ++ i :: l₂) ∨
        ∃ d, l₂ = d ++ j :: c ∧ a = l₁ ++ i :: d := by
    intro a j c e
    rcases List.append_eq_append_iff.mp e with ⟨d, rfl, hd⟩ | ⟨d, rfl, hd⟩
    · cases d with
      | nil => simp_all
      | cons x d =>
        simp only [List.cons_append, List.cons.injEq] at hd
        obtain ⟨rfl, rfl⟩ := hd
        exact .inr (.inr ⟨d, rfl, rfl⟩)
    · cases d with
      | nil => simp_all
      | cons x d =>
        simp only [List.cons_append, List.cons.injEq] at hd
        obtain ⟨rfl, rfl⟩ := hd
        exact .inr (.inl ⟨d, rfl, rfl⟩)
  refine ⟨by simpa using h.block_lt, ?_, ?_, ?_, ?_, hnodup, ?_, ?_, ?_⟩
  · rw [hblock, if_pos rfl]
    cases l₁ with
    | nil => rfl
    | cons a l₁ =>
      have := h.head_eq
      simp_all
  · rw [hblock, if_pos rfl]
    cases l₂ with
    | nil => simp
    | cons n l₂ =>
      have := h.tail_eq
      simp_all
  · intro a j c e
    rw [hinstr, relink]
    rcases hsplit a j c e with ⟨rfl, rfl, rfl⟩ | ⟨d, rfl, rfl⟩ | ⟨d, rfl, rfl⟩
    · rw [if_pos rfl]
    · have hj : j ∉ l₂ := fun hm => (List.nodup_append.mp h.nodup).2.2 j (by simp) j hm rfl
      rw [if_neg (hold j (by simp))]
      dsimp only
      rw [if_neg fun e => hj (List.mem_of_head? e)]
      exact h.prev_eq a j (d ++ l₂) (by simp)
    · rw [if_neg (hold j (by simp))]
      dsimp only
      cases d with
      | nil => simp
      | cons x d =>
        have hne : x ≠ j := by
          have := (List.nodup_append.mp h.nodup).2.1
          simp only [List.cons_append, List.nodup_cons] at this
          rintro rfl
          exact this.1 (by simp)
        rw [if_neg (by simpa using hne), h.prev_eq (l₁ ++ x :: d) j c (by simp)]
        simp [List.getLast?_append, List.getLast?_cons]
  · intro a j c e
    rw [hinstr, relink]
    rcases hsplit a j c e with ⟨rfl, rfl, rfl⟩ | ⟨d, rfl, rfl⟩ | ⟨d, rfl, rfl⟩
    · rw [if_pos rfl]
    · rw [if_neg (hold j (by simp))]
      dsimp only
      rcases List.eq_nil_or_concat d with rfl | ⟨d, x, rfl⟩
      · simp
      · rw [List.concat_eq_append] at *
        have hne : x ≠ j := by
          have := (List.nodup_append.mp h.nodup).1
          rw [List.perm_middle.nodup_iff, List.nodup_cons] at this
          rintro rfl
          exact this.1 (by simp)
        have hlast : (a ++ j :: (d ++ [x])).getLast? = some x := by
          rw [← List.cons_append, ← List.append_assoc, List.getLast?_concat]
        rw [hlast, if_neg (by simpa using hne), h.next_eq a j (d ++ [x] ++ l₂) (by simp)]
        cases d <;> simp
    · have hj : j ∉ l₁ := fun hm => (List.nodup_append.mp h.nodup).2.2 j hm j (by simp) rfl
      rw [if_neg (hold j (by simp))]
      dsimp only
      rw [if_neg fun e => hj (List.mem_of_getLast? e)]
      exact h.next_eq (l₁ ++ d) j c (by simp)
  · intro j hj
    rw [size_instrs_linkAfter]
    rcases List.mem_append.mp hj with hm | hm
    · exact h.lt j (List.mem_append_left _ hm)
    · rcases List.mem_cons.mp hm with rfl | hm
      · exact hi
      · exact h.lt j (List.mem_append_right _ hm)
  · intro j hj
    rw [hinstr, relink]
    by_cases e : j = i
    · rw [if_pos e, e]
      exact hb
    · rw [if_neg e]
      exact h.block_eq j (by simp_all)
  · intro j hj
    rw [hinstr, relink]
    by_cases e : j = i
    · rw [if_pos e, e]
      exact hlive
    · rw [if_neg e]
      exact h.live j (by simp_all)

theorem linkAfter_eq (after : Option InstrId) :
    f.linkAfter b after i =
      { f with
        instrs := (f.linkAfter b after i).instrs
        blocks := (f.linkAfter b after i).blocks } := by
  unfold linkAfter
  dsimp only
  split <;> split <;> rfl

end Recompiler.IR.Fragment
