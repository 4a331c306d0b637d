import Recompiler.Proofs.X64.Blocks
import Recompiler.Proofs.X64.Decoding

/-!
Finished code in its buffer. Each line of it stands at its place, and the displacement of each jump
leads to the place of the label that the jump names.
-/
namespace Recompiler.X64

open IR CodeBuffer

/-- The bytes from `start` on are these lines, with every jump led to the first place of its
label. -/
structure Stands (code : CodeBuffer) (start : Nat) (a : Assembly) : Prop where
  instr : ∀ (pre : Assembly) (i : Instruction) (post : Assembly), a = pre ++ .instr i :: post →
    code.view (start + pre.size) (start + pre.size + i.bytes.length) = i.bytes
  jump : ∀ (pre : Assembly) (cond : Option Cond) (target : Label) (post : Assembly),
    a = pre ++ .jump cond target :: post →
    ∃ (disp : Int32) (before after : Assembly),
      code.view (start + pre.size) (start + pre.size + (Line.jump cond target).size) =
        (Line.jumpBy cond disp).bytes ∧
      a = before ++ .label target :: after ∧ .label target ∉ before ∧
      (start + pre.size + (Line.jump cond target).size : Nat) + disp.toInt =
        (start + before.size : Nat)

/-! ### Labels -/

namespace Assembly

variable {a : Assembly} {pos place : Nat} {l : Label}

/-- The label that is found is the first one. -/
theorem exists_of_lookup (h : (a.labels pos).lookup l = some place) : ∃ before after : Assembly,
    a = before ++ .label l :: after ∧ .label l ∉ before ∧ place = pos + before.size := by
  induction a generalizing pos with
  | nil => cases h
  | cons line rest ih =>
    -- The first line is passed over.
    have hpass : line ≠ .label l → (labels (pos + line.size) rest).lookup l = some place →
        ∃ before after : Assembly, line :: rest = before ++ .label l :: after ∧ .label l ∉ before ∧
          place = pos + before.size := fun hne h => by
      obtain ⟨before, after, rfl, hnot, rfl⟩ := ih h
      refine ⟨line :: before, after, rfl, ?_, ?_⟩
      · exact List.not_mem_cons_of_ne_of_not_mem (Ne.symm hne) hnot
      · simp only [size]
        omega
    cases line with
    | instr i => exact hpass (by simp) h
    | jump cond target => exact hpass (by simp) h
    | label l' =>
      rw [labels, List.lookup_cons] at h
      by_cases heq : l = l'
      · subst heq
        rw [beq_self_eq_true] at h
        cases h
        exact ⟨[], rest, rfl, List.not_mem_nil, rfl⟩
      · rw [beq_false_of_ne heq] at h
        exact hpass (by simpa using Ne.symm heq) h

end Assembly

/-! ### Bytes -/

section
variable {code : CodeBuffer} {start stop : Nat} {x y z : List UInt8}

/-- A part of the bytes that lie between two positions. -/
theorem view_part (h : code.view start stop = x ++ y ++ z) (hstop : start ≤ stop) :
    code.view (start + x.length) (start + x.length + y.length) = y := by
  have hlen := congrArg List.length h
  simp only [length_view, List.length_append] at hlen
  rw [view_append (show start ≤ start + x.length + y.length by omega) (by omega),
    view_append (show start ≤ start + x.length by omega) (Nat.le_add_right ..)] at h
  obtain ⟨hxy, -⟩ := List.append_inj h (by simp only [List.length_append, length_view]; omega)
  exact (List.append_inj hxy (by rw [length_view]; omega)).2

end

theorem length_jumpBy (cond : Option Cond) (target : Label) (disp : Int32) :
    (Line.jumpBy cond disp).bytes.length = (Line.jump cond target).size := by
  rw [Assembly.bytes_jumpBy, Assembly.size_jump, List.length_append, Assembly.length_imm32]

theorem bytes_of_instrs (is : List Instruction) :
    Assembly.size (is.map .instr) = (is.flatMap Instruction.bytes).length := by
  induction is with
  | nil => rfl
  | cons i is ih =>
    rw [List.map_cons, Assembly.size, ih, List.flatMap_cons, List.length_append]; rfl

/-- Code without jumps stands where its bytes are. -/
theorem stands_of_instrs {code : CodeBuffer} {start : Nat} {is : List Instruction}
    (h : code.view start (start + (is.flatMap Instruction.bytes).length) =
      is.flatMap Instruction.bytes) : Stands code start (is.map .instr) where
  instr pre i post hsplit := by
    obtain ⟨before, behind, rfl, rfl, hrest⟩ := List.map_eq_append_iff.mp hsplit
    obtain ⟨i', after, rfl, hi, -⟩ := List.map_eq_cons_iff.mp hrest
    cases hi
    rw [List.flatMap_append, List.flatMap_cons, ← List.append_assoc] at h
    rw [bytes_of_instrs]
    exact view_part h (Nat.le_add_right ..)
  jump pre cond target post hsplit := by
    have hmem : Line.jump cond target ∈ is.map Line.instr := by
      rw [hsplit]
      exact List.mem_append_right pre List.mem_cons_self
    obtain ⟨i, -, hi⟩ := List.mem_map.mp hmem
    cases hi

/-- Written code stands in the buffer. -/
theorem Emission.Wrote.stands {start : Nat} {a : Assembly} {disp : Nat → Int32} {e : Emission}
    (h : Wrote start a disp [] e) : Stands e.buffer start a := by
  have hstart : start ≤ e.buffer.offset := h.offset_eq ▸ Nat.le_add_right ..
  refine ⟨fun pre i post ha => ?_, fun pre cond target post ha => ?_⟩
  · have hview := h.view_eq
    rw [ha, Assembly.encode_append, Assembly.encode, ← List.append_assoc] at hview
    have hpart := view_part hview hstart
    rwa [Assembly.length_encode] at hpart
  · let site := start + pre.size + (jumpHead cond).flatten.length
    have hview := h.view_eq
    rw [ha, Assembly.encode_append, Assembly.encode, ← Assembly.bytes_jumpBy,
      ← List.append_assoc] at hview
    have hpart := view_part hview hstart
    rw [Assembly.length_encode, length_jumpBy cond target] at hpart
    have hsite : (site, target) ∈ a.sites start := by
      rw [ha, Assembly.sites_split]
      exact List.mem_append_right _ List.mem_cons_self
    obtain ⟨place, hplace, hdisp⟩ := h.leads_labels _ hsite
    obtain ⟨before, after, hbefore, hnot, rfl⟩ := Assembly.exists_of_lookup hplace
    refine ⟨disp site, before, after, hpart, hbefore, hnot, ?_⟩
    rw [hdisp, Assembly.size_jump]
    push_cast [site]
    omega

/-! ### Assembled fragments -/

namespace Lowering

variable {c : Lowering} {offsets : Offsets} {f : Fragment}

theorem ofFragment_eq_ok (h : ofFragment offsets f = .ok c) : ∃ frame saveXmms,
    c = { fragment := f, offsets, frame, exits := Exit.statics f, saveXmms } := by
  obtain ⟨frame, -, hc⟩ := Interp.bind_eq_ok h
  cases hc
  exact ⟨_, _, rfl⟩

theorem fragment_ofFragment (h : ofFragment offsets f = .ok c) : c.fragment = f := by
  obtain ⟨_, _, rfl⟩ := ofFragment_eq_ok h
  rfl

theorem exits_ofFragment (h : ofFragment offsets f = .ok c) : c.exits = Exit.statics f := by
  obtain ⟨_, _, rfl⟩ := ofFragment_eq_ok h
  rfl

end Lowering

namespace Backend

variable {b b' : Backend} {addr : UInt32} {f : Fragment} {handle : Nat}

/-- What a successful assembly leaves: the code of the fragment, behind all older code. -/
theorem stands_assemble (h : b.assemble addr f = (b', .ok handle)) :
    ∃ c a, Lowering.ofFragment b.offsets f = .ok c ∧ c.code = .ok a ∧ Stands b'.buffer b.used a ∧
      b'.used = b.used + a.size ∧ b'.stored? handle = some ⟨addr, b.used, a.size⟩ := by
  unfold assemble at h
  split at h
  case h_1 => cases h
  case h_2 c hc =>
  have hwrote := @Emission.wrote_generate b.buffer c.parts
  dsimp only at h
  generalize Emission.generate { buffer := b.buffer } c.parts = outcome at hwrote h
  obtain ⟨e, r⟩ := outcome
  cases r with
  | error r => cases h
  | ok u =>
    dsimp only at h
    split at h
    case isTrue => cases h
    case isFalse hover =>
      obtain ⟨as, disp, has, hwrote⟩ := hwrote rfl (Bool.not_eq_true _ ▸ hover)
      cases h
      refine ⟨c, as.flatten, hc, ?_, hwrote.stands, hwrote.offset_eq, ?_⟩
      · unfold Lowering.code
        rw [has]
        rfl
      · have hsize : e.buffer.offset - b.buffer.offset = Assembly.size as.flatten := by
          rw [hwrote.offset_eq]
          exact Nat.add_sub_cancel_left ..
        change ((b.blocks.push _)[b.blocks.size]?).join = _
        rw [join_push, if_pos rfl, hsize]
        rfl

end Backend
end Recompiler.X64
