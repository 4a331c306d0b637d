import Recompiler.Proofs.Allocation.StraightLine

/-!
What is recorded before allocation: a temporary for each result, with the positions of the
instructions that define it and use it, in order.
-/
namespace Recompiler.Pass.Allocation

open IR Interp

variable {f : Fragment} {l l₁ l₂ : List InstrId} {i : InstrId} {s : State}

/-! ### Positions -/

/-- One step of numbering. -/
def numberNext (m : Std.HashMap InstrId Int × Int) (i : InstrId) : Std.HashMap InstrId Int × Int :=
  (m.1.insert i m.2, m.2 + stride)

theorem getD_numberNext_of_not_mem (hi : i ∉ l) (m : Std.HashMap InstrId Int × Int) :
    (l.foldl numberNext m).1.getD i 0 = m.1.getD i 0 := by
  induction l generalizing m with
  | nil => rfl
  | cons j l ih =>
    rw [List.foldl_cons, ih (fun h => hi (List.mem_cons_of_mem j h)), numberNext,
      Std.HashMap.getD_insert, if_neg]
    rw [beq_iff_eq]
    rintro rfl
    exact hi List.mem_cons_self

theorem snd_numberNext (m : Std.HashMap InstrId Int × Int) :
    (l.foldl numberNext m).2 = m.2 + stride * l.length := by
  induction l generalizing m with
  | nil => simp
  | cons j l ih =>
    rw [List.foldl_cons, ih, numberNext, List.length_cons]
    simp only [stride]
    omega

/-- Instructions are numbered in steps of the stride. -/
theorem getD_number {b : BlockId} (hl : (l₁ ++ i :: l₂).Nodup)
    (hb : f.blockInstrs b = l₁ ++ i :: l₂) :
    (number f [b]).getD i 0 = stride * l₁.length := by
  have hi : i ∉ l₂ := by
    rw [List.perm_middle.nodup_iff, List.nodup_cons] at hl
    exact fun h => hl.1 (List.mem_append_right _ h)
  have hfold : number f [b] = ((l₁ ++ i :: l₂).foldl numberNext (∅, 0)).1 := by
    rw [number, List.flatMap_cons, List.flatMap_nil, List.append_nil, hb]
    rfl
  rw [hfold, List.foldl_append, List.foldl_cons, getD_numberNext_of_not_mem hi, numberNext,
    Std.HashMap.getD_insert, if_pos (by simp), snd_numberNext]
  simp

/-! ### Temporaries -/

theorem temp_modifyTemp (s : State) (t u : Nat) (g : Temp → Temp) :
    temp (modifyTemp s t g) u =
      if t = u ∧ u < s.bins.temps.size then g (temp s u) else temp s u := getD_modify _ t u g _

@[simp] theorem size_temps_modifyTemp (s : State) (t : Nat) (g : Temp → Temp) :
    (modifyTemp s t g).bins.temps.size = s.bins.temps.size := Array.size_modify ..

/-- How often an instruction refers to a value, as its result or as an input. -/
def references (f : Fragment) (v : ValueId) (i : InstrId) : Nat :=
  (if (f.instr i).result = some v then 1 else 0) + (inputs f i).count v

/-- The positions of the instructions of a list that refer to a value, in order. -/
def occurrences (f : Fragment) (l : List InstrId) (v : ValueId) : List Int :=
  l.zipIdx.flatMap fun p => List.replicate (references f v p.1) (stride * p.2)

theorem references_pos {v : ValueId} :
    0 < references f v i ↔ (f.instr i).result = some v ∨ v ∈ inputs f i := by
  rw [references, ← List.count_pos_iff]
  split <;> simp_all

theorem occurrences_concat (f : Fragment) (l : List InstrId) (i : InstrId) (v : ValueId) :
    occurrences f (l ++ [i]) v =
      occurrences f l v ++ List.replicate (references f v i) (stride * l.length) := by
  simp [occurrences, List.zipIdx_append]

theorem mem_occurrences {v : ValueId} {u : Int} : u ∈ occurrences f l v ↔
    ∃ l₁ i l₂, l = l₁ ++ i :: l₂ ∧ u = stride * l₁.length ∧
      ((f.instr i).result = some v ∨ v ∈ inputs f i) := by
  induction l using List.reverseRecOn with
  | nil => simp [occurrences]
  | append_singleton l j ih =>
    rw [occurrences_concat, List.mem_append, ih, List.mem_replicate, Nat.ne_zero_iff_zero_lt,
      references_pos]
    constructor
    · rintro (⟨l₁, i, l₂, rfl, hu, h⟩ | ⟨h, hu⟩)
      · exact ⟨l₁, i, l₂ ++ [j], by simp, hu, h⟩
      · exact ⟨l, j, [], rfl, hu, h⟩
    · rintro ⟨l₁, i, l₂, e, hu, h⟩
      rcases List.eq_nil_or_concat l₂ with rfl | ⟨l₃, k, rfl⟩
      · obtain ⟨rfl, e'⟩ := List.append_inj' e rfl
        cases e'
        exact .inr ⟨h, hu⟩
      · rw [List.concat_eq_append, ← List.cons_append, ← List.append_assoc] at e
        obtain ⟨rfl, -⟩ := List.append_inj' e rfl
        exact .inl ⟨l₁, i, l₃, rfl, hu, h⟩

theorem sorted_occurrences (f : Fragment) (l : List InstrId) (v : ValueId) :
    (occurrences f l v).Pairwise (· ≤ ·) := by
  induction l using List.reverseRecOn with
  | nil => exact .nil
  | append_singleton l j ih =>
    rw [occurrences_concat, List.pairwise_append]
    refine ⟨ih, List.pairwise_replicate.mpr (.inr (Int.le_refl _)), ?_⟩
    intro u hu w hw
    obtain ⟨l₁, i, l₂, rfl, rfl, -⟩ := mem_occurrences.mp hu
    rw [List.eq_of_mem_replicate hw]
    simp only [stride, List.length_append, List.length_cons]
    omega

/-- What is recorded of the instructions `l`. The uses of a temporary are the positions of the
instructions that define or use its value. -/
structure Recorded (f : Fragment) (l : List InstrId) (s : State) : Prop where
  fragment_eq : s.fragment = f
  size_eq : s.bins.temps.size = (results f l).length
  tempOf_iff : ∀ (v : ValueId) (t : Nat), s.tempOf[v]? = some t ↔ (results f l)[t]? = some v
  value_eq : ∀ t, (temp s t).value = none
  slot_eq : ∀ t, (temp s t).slot = none
  uses_eq : ∀ (t : Nat) (v : ValueId), (results f l)[t]? = some v →
    (temp s t).uses = occurrences f l v

theorem results_concat (f : Fragment) (l : List InstrId) (i : InstrId) :
    results f (l ++ [i]) = results f l ++ (f.instr i).result.toList := by
  rw [results, List.filterMap_append, results]
  cases h : (f.instr i).result <;> simp [h]

theorem mem_results {v : ValueId} : v ∈ results f l ↔ ∃ i ∈ l, (f.instr i).result = some v :=
  List.mem_filterMap

theorem results_getElem?_lt {v : ValueId} {t : Nat} (h : (results f l)[t]? = some v) :
    t < (results f l).length := (List.getElem?_eq_some_iff.mp h).1

namespace Recorded

variable (h : Recorded f l s)
include h

/-- A temporary stands for a result or has no uses. -/
theorem uses_cases (t : Nat) : (temp s t).uses = [] ∨
    ∃ v, (results f l)[t]? = some v ∧ (temp s t).uses = occurrences f l v := by
  cases hv : (results f l)[t]? with
  | none =>
    left
    rw [List.getElem?_eq_none_iff, ← h.size_eq] at hv
    rw [temp, Array.getD_eq_getD_getElem?, Array.getElem?_eq_none hv]
    rfl
  | some v => exact .inr ⟨v, rfl, h.uses_eq t v hv⟩

theorem nonempty (t : Nat) (ht : t < s.bins.temps.size) : (temp s t).uses ≠ [] := by
  rw [h.size_eq] at ht
  obtain ⟨i, hi, hv⟩ := mem_results.mp (List.getElem_mem ht)
  obtain ⟨l₁, l₂, e⟩ := List.append_of_mem hi
  rw [h.uses_eq t _ (List.getElem?_eq_getElem ht)]
  exact List.ne_nil_of_mem (mem_occurrences.mpr ⟨l₁, i, l₂, e, rfl, .inl hv⟩)

theorem sorted (t : Nat) : (temp s t).uses.Pairwise (· ≤ ·) := by
  rcases h.uses_cases t with hnil | ⟨v, -, hv⟩
  · rw [hnil]
    exact .nil
  · rw [hv]
    exact sorted_occurrences f l v

theorem covered (l₁ : List InstrId) (i : InstrId) (l₂ : List InstrId) (e : l = l₁ ++ i :: l₂)
    (v : ValueId) (hv : v ∈ inputs f i) (t : Nat) (ht : s.tempOf[v]? = some t) :
    stride * l₁.length ∈ (temp s t).uses := by
  rw [h.uses_eq t v ((h.tempOf_iff v t).mp ht)]
  exact mem_occurrences.mpr ⟨l₁, i, l₂, e, rfl, .inr hv⟩

theorem justified (t : Nat) (u : Int) (hu : u ∈ (temp s t).uses) : ∃ l₁ i l₂ v, l = l₁ ++ i :: l₂ ∧
    u = stride * l₁.length ∧ (results f l)[t]? = some v ∧
    ((f.instr i).result = some v ∨ v ∈ inputs f i) := by
  rcases h.uses_cases t with hnil | ⟨v, ht, hv⟩
  · rw [hnil] at hu
    cases hu
  · rw [hv] at hu
    obtain ⟨l₁, i, l₂, e, hpos, hi⟩ := mem_occurrences.mp hu
    exact ⟨l₁, i, l₂, v, e, hpos, ht, hi⟩

end Recorded

end Recompiler.Pass.Allocation
