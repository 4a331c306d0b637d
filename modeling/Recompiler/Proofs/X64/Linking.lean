import Recompiler.Proofs.Bytes
import Recompiler.Proofs.Interp.Lowering
import Recompiler.X64.Assembly

/-!
The bytes of linked code. Only the displacements of its jumps depend on the places of the labels, so
code is the same for any displacements but for four bytes at each site, and the linked code is the
code whose displacements lead to the labels.
-/
namespace Recompiler.X64

open IR

namespace Assembly

/-- The bytes of code at a position, with the displacement of the jump at each site. -/
def encode (disp : Nat → Int32) : Nat → Assembly → List UInt8
  | _, [] => []
  | pos, .instr i :: rest => i.bytes ++ encode disp (pos + i.bytes.length) rest
  | pos, .label _ :: rest => encode disp pos rest
  | pos, .jump cond target :: rest =>
    let site := pos + (jumpHead cond).flatten.length
    (jumpHead cond).flatten ++ imm32 (disp site) ++
      encode disp (pos + (Line.jump cond target).size) rest

/-- The displacements of the jumps in code at a position, and where the jumps lead. -/
def sites : Nat → Assembly → List (Nat × Label)
  | _, [] => []
  | pos, .jump cond target :: rest =>
    (pos + (jumpHead cond).flatten.length, target) :: sites
    (pos + (Line.jump cond target).size) rest
  | pos, line :: rest => sites (pos + line.size) rest

variable {a a' : Assembly} {disp disp' : Nat → Int32} {pos : Nat}

theorem length_imm32 (n : Int32) : (imm32 n).length = 4 := Bytes.length_ofWord 4 _

theorem bytes_jumpBy (cond : Option Cond) (disp : Int32) :
    (Line.jumpBy cond disp).bytes = (jumpHead cond).flatten ++ imm32 disp := by
  cases cond <;> simp [Line.jumpBy, Instruction.bytes, Instruction.pieces]

theorem size_jump (cond : Option Cond) (target : Label) :
    (Line.jump cond target).size = (jumpHead cond).flatten.length + 4 := by
  change (Line.jumpBy cond 0).bytes.length = _
  rw [bytes_jumpBy, List.length_append, length_imm32]

theorem size_append (a a' : Assembly) : size (a ++ a') = a.size + a'.size := by
  induction a with
  | nil => simp [size]
  | cons line rest ih =>
    simp only [List.cons_append, size, ih]
    omega

theorem encode_append (a a' : Assembly) (pos : Nat) :
    encode disp pos (a ++ a') = encode disp pos a ++ encode disp (pos + a.size) a' := by
  induction a generalizing pos with
  | nil => rfl
  | cons line rest ih =>
    cases line <;> simp only [List.cons_append, encode, size, Line.size, ih, List.append_assoc,
      Nat.add_assoc, Nat.zero_add]

theorem sites_append (a a' : Assembly) (pos : Nat) :
    sites pos (a ++ a') = sites pos a ++ sites (pos + a.size) a' := by
  induction a generalizing pos with
  | nil => rfl
  | cons line rest ih =>
    cases line <;> simp only [List.cons_append, sites, size, ih, Nat.add_assoc]

theorem labels_append (a a' : Assembly) (pos : Nat) :
    labels pos (a ++ a') = labels pos a ++ labels (pos + a.size) a' := by
  induction a generalizing pos with
  | nil => rfl
  | cons line rest ih =>
    cases line <;> simp only [List.cons_append, labels, size, Line.size, ih, Nat.add_assoc,
      Nat.zero_add]

theorem length_encode (disp : Nat → Int32) (pos : Nat) (a : Assembly) :
    (encode disp pos a).length = a.size := by
  induction a generalizing pos with
  | nil => rfl
  | cons line rest ih =>
    cases line with
    | instr i => simp only [encode, size, Line.size, List.length_append, ih]
    | label l => simp only [encode, size, Line.size, ih, Nat.zero_add]
    | jump cond target =>
      simp only [encode, size, size_jump, List.length_append, length_imm32, ih]

/-- A site belongs to a jump, which splits the code. -/
theorem exists_of_site {j : Nat × Label} (h : j ∈ sites pos a) :
    ∃ (pre : Assembly) (cond : Option Cond) (post : Assembly),
    a = pre ++ .jump cond j.2 :: post ∧ j.1 = pos + pre.size + (jumpHead cond).flatten.length := by
  induction a generalizing pos with
  | nil => cases h
  | cons line rest ih =>
    -- The jump is this line, or it lies in the rest.
    have hrest : j ∈ sites (pos + line.size) rest → ∃ (pre : Assembly) (cond : Option Cond)
        (post : Assembly), line :: rest = pre ++ .jump cond j.2 :: post ∧
        j.1 = pos + pre.size + (jumpHead cond).flatten.length := fun h => by
      obtain ⟨pre, cond, post, rfl, hj⟩ := ih h
      refine ⟨line :: pre, cond, post, rfl, ?_⟩
      rw [hj]
      simp only [size]
      omega
    cases line with
    | instr i => exact hrest h
    | label l => exact hrest h
    | jump cond target =>
      obtain rfl | h := List.mem_cons.mp h
      · exact ⟨[], cond, rest, rfl, rfl⟩
      · exact hrest h

theorem site_bounds {j : Nat × Label} (h : j ∈ sites pos a) :
    pos ≤ j.1 ∧ j.1 + 4 ≤ pos + a.size := by
  obtain ⟨pre, cond, post, rfl, hj⟩ := exists_of_site h
  rw [size_append, size, size_jump]
  omega

theorem sites_split (pre post : Assembly) (cond : Option Cond) (target : Label) :
    sites pos (pre ++ .jump cond target :: post) = sites pos pre ++
      (pos + pre.size + (jumpHead cond).flatten.length, target) ::
        sites (pos + pre.size + (Line.jump cond target).size) post := by
  rw [sites_append]
  rfl

theorem site_unique {j j' : Nat × Label} (h : j ∈ sites pos a) (h' : j' ∈ sites pos a)
    (heq : j.1 = j'.1) : j = j' := by
  obtain ⟨pre, cond, post, rfl, hj⟩ := exists_of_site h
  rw [sites_split, List.mem_append, List.mem_cons] at h'
  have hsize := size_jump cond j.2
  rcases h' with h' | h' | h'
  · have := site_bounds h'
    omega
  · rw [h', ← hj]
  · have := site_bounds h'
    omega

theorem encode_congr (h : ∀ j ∈ sites pos a, disp' j.1 = disp j.1) :
    encode disp' pos a = encode disp pos a := by
  induction a generalizing pos with
  | nil => rfl
  | cons line rest ih =>
    cases line with
    | instr i => exact congrArg (i.bytes ++ ·) (ih h)
    | label l => exact ih h
    | jump cond target =>
      rw [encode, encode, ih fun j hj => h j (List.mem_cons_of_mem _ hj)]
      simp only [h _ List.mem_cons_self]

/-- The bytes around the displacement of a jump. -/
theorem encode_update {j : Nat × Label} (h : j ∈ sites pos a) (disp : Nat → Int32) :
    ∃ x z, j.1 = pos + x.length ∧ ∀ v,
      encode (Function.update disp j.1 v) pos a = x ++ imm32 v ++ z := by
  obtain ⟨pre, cond, post, rfl, hj⟩ := exists_of_site h
  have hsize := size_jump cond j.2
  refine ⟨encode disp pos pre ++ (jumpHead cond).flatten,
    encode disp (pos + pre.size + (Line.jump cond j.2).size) post, ?_, fun v => ?_⟩
  · rw [List.length_append, length_encode, hj]
    omega
  · have hpre : encode (Function.update disp j.1 v) pos pre = encode disp pos pre := by
      refine encode_congr fun j' hj' => Function.update_of_ne ?_ _ _
      have := site_bounds hj'
      omega
    have hpost : encode (Function.update disp j.1 v) (pos + pre.size + (Line.jump cond j.2).size)
        post = encode disp (pos + pre.size + (Line.jump cond j.2).size) post := by
      refine encode_congr fun j' hj' => Function.update_of_ne ?_ _ _
      have := site_bounds hj'
      omega
    rw [encode_append, encode, hpre, hpost, ← hj, Function.update_self]
    simp only [List.append_assoc]

/-! ### Linking -/

theorem lookup_labels (a : Assembly) (start pos : Nat) (l : Label) :
    (labels (start + pos) a).lookup l = ((labels pos a).lookup l).map (start + ·) := by
  induction a generalizing pos with
  | nil => rfl
  | cons line rest ih =>
    cases line with
    | instr i => simp only [labels, Nat.add_assoc, ih]
    | jump cond target => simp only [labels, Nat.add_assoc, ih]
    | label l' =>
      rw [labels, labels, List.lookup_cons, List.lookup_cons, ih]
      cases l == l' <;> rfl

/-- The displacement at a site leads to its label. -/
def Leads (places : List (Label × Nat)) (disp : Nat → Int32) (j : Nat × Label) : Prop :=
  ∃ place : Nat, places.lookup j.2 = some place ∧ (disp j.1).toInt = place - (j.1 + 4)

theorem link_spec {places places' : List (Label × Nat)} {start : Nat}
    (hplaces : ∀ l, places'.lookup l = (places.lookup l).map (start + ·))
    (h : ∀ j ∈ sites (start + pos) a, Leads places' disp j) :
    ∃ code, link places pos a = .ok code ∧
      (code.flatMap Instruction.pieces).flatten = encode disp (start + pos) a := by
  induction a generalizing pos with
  | nil => exact ⟨[], rfl, rfl⟩
  | cons line rest ih =>
    cases line with
    | label l => exact ih h
    | instr i =>
      have hrest : ∀ j ∈ sites (start + (pos + i.bytes.length)) rest, Leads places' disp j := by
        rw [← Nat.add_assoc]
        exact h
      obtain ⟨code, hcode, hbytes⟩ := ih hrest
      refine ⟨i :: code, ?_, ?_⟩
      · rw [link]
        simp only [Line.size, hcode]
        rfl
      · rw [List.flatMap_cons, List.flatten_append, hbytes, encode, Nat.add_assoc]
        rfl
    | jump cond target =>
      have hrest : ∀ j ∈ sites (start + (pos + (Line.jump cond target).size)) rest,
          Leads places' disp j := by
        rw [← Nat.add_assoc]
        exact fun j hj => h j (List.mem_cons_of_mem _ hj)
      obtain ⟨code, hcode, hbytes⟩ := ih hrest
      obtain ⟨place', hplace', hdisp⟩ := h _ List.mem_cons_self
      rw [hplaces] at hplace'
      obtain ⟨place, hplace, rfl⟩ := Option.map_eq_some_iff.mp hplace'
      -- Both distances start at the end of the jump.
      have hdist : (((start + place : Nat) : Int) -
          ((start + pos + (jumpHead cond).flatten.length : Nat) + 4)) =
          place - (pos + (Line.jump cond target).size : Nat) := by
        rw [size_jump]
        push_cast
        omega
      have hdisp : disp (start + pos + (jumpHead cond).flatten.length) =
          Int32.ofInt (place - (pos + (Line.jump cond target).size : Nat)) := by
        rw [← hdist, ← hdisp, Int32.ofInt_toInt]
      refine ⟨Line.jumpBy cond (Int32.ofInt (place - (pos + (Line.jump cond target).size : Nat))) ::
        code, ?_, ?_⟩
      · rw [link]
        simp only [hplace, hcode]
        rfl
      · rw [List.flatMap_cons, List.flatten_append, hbytes, encode, Nat.add_assoc start]
        simp only [Nat.add_assoc start pos] at hdisp ⊢
        rw [hdisp, ← bytes_jumpBy]
        rfl

/-- Code whose displacements lead to the labels is the linked code, wherever it stands. -/
theorem instructions_spec {start : Nat} (h : ∀ j ∈ sites start a, Leads (labels start a) disp j) :
    ∃ code, a.instructions = .ok code ∧
      (code.flatMap Instruction.pieces).flatten = encode disp start a := by
  have hsites : ∀ j ∈ sites (start + 0) a, Leads (labels (start + 0) a) disp j := h
  exact link_spec (lookup_labels a start 0) hsites

end Assembly
end Recompiler.X64
