import Recompiler.Proofs.IR.Closing
import Recompiler.Proofs.IR.Naming
import Recompiler.Proofs.IR.Typing

/-!
Fragments that building methods make can be written and read again, but for what is written without
a form that is read: data that are blocks or texts, arguments behind one that is left out, and slots
past the end of what slots can take.
-/
namespace Recompiler.IR

open Fragment

namespace OpKind

/-- How many arguments an operation of the kind takes at most. -/
def arity : OpKind → Nat
  | .loadHost | .loadGuest | .loadContext | .loadLocal | .convert | .intUnary | .floatUnary
  | .branch => 1
  | .fallback | .select | .call => 3
  | _ => 2

def yields : OpKind → Bool
  | .sourceInfo | .fallback | .storeHost | .storeGuest | .storeContext | .storeLocal | .branch
  | .branchIf | .call => false
  | _ => true

/-- The second argument is kept or chosen as it is, whatever its type. -/
def keepsData : OpKind → Bool
  | .storeHost | .storeContext | .storeLocal | .select => true
  | _ => false

end OpKind

namespace Signature

theorem arityOk_eq (op : Opcode) (n : Nat) : arityOk op n =
    if op.kind = .call then decide (1 ≤ n) && decide (n ≤ 3) else n == op.kind.arity := by
  cases op <;> rfl

theorem hasResult_eq (op : Opcode) : op.hasResult = op.kind.yields := by
  cases op <;> rfl

theorem forall_getElem?_cons {P : Nat → Ty → Prop} {x : Ty} {l : List Ty} :
    (∀ n t, (x :: l)[n]? = some t → P n t) ↔ P 0 x ∧ ∀ n t, l[n]? = some t → P (n + 1) t := by
  constructor
  · exact fun h => ⟨h 0 x rfl, fun n t ht => h (n + 1) t ht⟩
  · rintro ⟨h₀, h⟩ n t ht
    cases n with
    | zero =>
      cases ht
      exact h₀
    | succ n => exact h n t ht

/-- The operand of a conversion is of the class that is read for it. -/
theorem accepts_of_converts {op : Opcode} {src dst : Ty} : Build.converts op src dst = true →
    (match op with
      | .ftoi | .fext | .ftrunc => src.isFloat
      | _ => src.isInt) = true := by
  intro h
  unfold Build.converts at h
  split at h <;> simp only [Bool.and_eq_true, beq_iff_eq] at h
  case h_1 | h_2 => exact h.1
  case h_3 | h_4 =>
    rw [h.1]
    rfl
  case h_5 => split <;> simp_all

/-- What a building method accepts is accepted when it is read, if what is kept is data and no
argument is left out before another one. -/
theorem check_of_accepts {op : Opcode} {result a b c : Option Ty}
    (h : Meaning.accepts op result a b c = true)
    (hdata : op.kind.keepsData = true → ∀ ty, b = some ty → ty.isData = true)
    (hfilled : b = none → c = none) :
    check 0 op result [a, b, c].reduceOption = .ok () := by
  rw [check_eq_ok_iff, arityOk_eq, hasResult_eq]
  unfold Meaning.accepts at h
  unfold accepts
  generalize op.kind = kind at h hdata ⊢
  cases a with
  | none => cases kind <;> simp at h
  | some x =>
    cases b with
    | none =>
      obtain rfl := hfilled rfl
      simp only [List.reduceOption_cons_of_some, List.reduceOption_cons_of_none,
        List.reduceOption_nil, forall_getElem?_cons, List.length_cons, List.length_nil]
      cases kind <;> simp_all [OpKind.arity, OpKind.yields, isTarget, Option.any_eq_true]
      case loadGuest =>
        obtain ⟨⟨y, rfl, -⟩, -⟩ := h
        rfl
      case convert =>
        obtain ⟨y, rfl, hty⟩ := h
        exact ⟨rfl, accepts_of_converts hty⟩
      case branch => exact h.2.symm
    | some y =>
      cases c with
      | none =>
        simp only [List.reduceOption_cons_of_some, List.reduceOption_cons_of_none,
          List.reduceOption_nil, forall_getElem?_cons, List.length_cons, List.length_nil]
        cases kind <;> simp_all [OpKind.arity, OpKind.yields, isTarget, OpKind.keepsData]
        case shiftSigned => rfl
        case branchIf => exact h.2.symm
      | some z =>
        simp only [List.reduceOption_cons_of_some, List.reduceOption_nil, forall_getElem?_cons,
          List.length_cons, List.length_nil]
        cases kind <;> simp_all [OpKind.arity, OpKind.yields, OpKind.keepsData]

end Signature

/-! ### Fragments that were built -/

namespace Fragment

open Meaning Interp

variable {f : Fragment}

/-- What a fragment that was built by the rules has to be for its text to be read. Its arguments are
data, but for the targets of branches; they stand in the first positions, and are results of
instructions that are written; and local slots end where a slot can end. -/
structure Readable (f : Fragment) : Prop where
  data : ∀ i ∈ f.allInstrs, ∀ n v, (f.instr i).arg n = some v →
    (f.ty v).isData = true ∨ Exit.target? (f.instr i) = some v
  filled : ∀ i ∈ f.allInstrs, (f.instr i).arg 1 = none → (f.instr i).arg 2 = none
  defined : ∀ i ∈ f.allInstrs, ∀ n v j, (f.instr i).arg n = some v →
    (f.value v).origin = .result j → j ∈ f.allInstrs ∧ (f.instr j).result = some v
  slots : ∀ i ∈ f.allInstrs, (f.instr i).op = .loadLocal ∨ (f.instr i).op = .storeLocal →
    ∀ a x, (f.instr i).arg 0 = some a → (f.value a).origin = .constant (.i32 x) →
      x.toInt32.toInt + (opTy f (f.instr i)).bytes ≤ maxLocalsSize

/-- Only branches have targets, and they keep nothing. -/
theorem target?_of_keepsData {ins : Instr} (h : ins.op.kind.keepsData = true) :
    Exit.target? ins = none := by
  unfold Exit.target?
  cases hop : ins.op <;> rw [hop] at h <;> first
    | rfl
    | cases h

theorem operands_tys (f : Fragment) (i : InstrId) : (f.instr i).operands.map (fun p => f.ty p.2) =
    [argTy? f i 0, argTy? f i 1, argTy? f i 2].reduceOption := by
  have hslots : [argTy? f i 0, argTy? f i 1, argTy? f i 2] = (List.finRange 3).map (argTy? f i) :=
    rfl
  rw [hslots, List.reduceOption, List.filterMap_map, Instr.operands, List.map_filterMap]
  refine congrArg (List.filterMap · _) (funext fun n => ?_)
  exact Option.map_map ..

theorem operand_ty (hc : f.Consistent) (v : ValueId) : (f.operand v).ty = f.ty v := by
  unfold operand
  split
  · rfl
  · next c _ ho => exact (hc.constant_ty v c ho).symm
  · rfl

theorem line_tys (hc : f.Consistent) (i : InstrId) : (f.line i).args.map (·.ty) =
    [argTy? f i 0, argTy? f i 1, argTy? f i 2].reduceOption := by
  rw [← operands_tys]
  unfold line
  rw [List.map_map]
  exact List.map_congr_left fun p _ => operand_ty hc p.2

theorem line_result (f : Fragment) (i : InstrId) :
    (f.line i).result.map (·.1) = (f.instr i).result.map f.ty := by
  unfold line resultLabel
  cases (f.instr i).result <;> rfl

/-- The lines of a fragment that was built by the rules have types that are read. -/
theorem line_typed (hc : f.Consistent) (ht : Typed f) (hp : Readable f) {i : InstrId}
    (hi : i ∈ f.allInstrs) : (f.line i).Typed := by
  unfold Line.Typed
  rw [line_tys hc, line_result]
  refine Signature.check_of_accepts (ht.accepted i hi) (fun hkeeps ty hty => ?_) fun hnone => ?_
  · obtain ⟨v, hv, rfl⟩ := Option.map_eq_some_iff.mp hty
    obtain hdata | htarget := hp.data i hi 1 v hv
    · exact hdata
    · rw [target?_of_keepsData hkeeps] at htarget
      cases htarget
  · rw [argTy?, hp.filled i hi (Option.map_eq_none_iff.mp hnone)]
    rfl

/-- Everything that is written has a label of its own. -/
structure Labelled (f : Fragment) : Prop where
  label : ∀ x, f.Written x → ∃ s, f.label? x = some s ∧ IsLabel s
  differ : f.LabelsDiffer

theorem mem_operands_of_line {i : InstrId} {o : Operand} (h : o ∈ (f.line i).args) :
    ∃ n v, (f.instr i).arg n = some v ∧ f.operand v = o := by
  obtain ⟨⟨n, v⟩, hmem, rfl⟩ := List.mem_map.mp h
  exact ⟨n, v, Instr.mem_operands.mp hmem, rfl⟩

/-- An argument that is no number is a block of the fragment, or a result of an instruction. -/
theorem reference_cases (hf : WellFormed f) (hc : f.Consistent) (ht : Typed f) (hp : Readable f)
    {i : InstrId} (hi : i ∈ f.allInstrs) {n : Slot} {v : ValueId} {ty : Ty} {name : String}
    (hv : (f.instr i).arg n = some v) (ho : f.operand v = .reference ty name) :
    (∃ b ∈ f.order, ty = .blk ∧ (f.block b).label.getD "?" = name) ∨
      ∃ j ∈ f.allInstrs, ty ≠ .blk ∧ (f.instr j).result = some v ∧ f.ty v = ty ∧
        (f.instr j).label.getD "?" = name := by
  unfold operand at ho
  split at ho
  · next b horigin =>
    obtain ⟨hty, hname⟩ := Operand.reference.inj ho
    refine .inl ⟨b, hf.target v b horigin, ?_, hname⟩
    rw [← hty]
    exact hc.constant_ty v _ horigin
  · cases ho
  · next j horigin =>
    obtain ⟨rfl, hname⟩ := Operand.reference.inj ho
    obtain ⟨hj, hres⟩ := hp.defined i hi n v j hv horigin
    refine .inr ⟨j, hj, fun hblk => ?_, hres, rfl, hname⟩
    -- a reference to a block is data of no kind, and a target is no result
    obtain hdata | htarget := hp.data i hi n v hv
    · rw [hblk] at hdata
      cases hdata
    · have hconst := ht.named i hi v htarget hblk
      obtain ⟨c, hc⟩ := (Value.isConstant_iff _).mp hconst
      rw [horigin] at hc
      cases hc

theorem Labelled.isLabel_getD (h : Labelled f) {x : BlockId ⊕ InstrId} (hx : f.Written x) :
    IsLabel ((f.label? x).getD "?") := by
  obtain ⟨s, hs, hlabel⟩ := h.label x hx
  rw [hs]
  exact hlabel

theorem line_lexical (hf : WellFormed f) (hc : f.Consistent) (ht : Typed f) (hp : Readable f)
    (hl : Labelled f) {i : InstrId} (hi : i ∈ f.allInstrs) : (f.line i).Lexical := by
  refine ⟨fun r hr => ?_, fun o ho => ?_⟩
  · obtain ⟨v, -, rfl⟩ := Option.map_eq_some_iff.mp hr
    exact hl.isLabel_getD (x := .inr i) hi
  · have hstr := (line_typed hc ht hp hi).ne_str ho
    obtain ⟨n, v, hv, rfl⟩ := mem_operands_of_line ho
    cases hop : f.operand v with
    | constant c =>
      rw [hop] at hstr
      cases c with
      | str s => exact absurd rfl hstr
      | blk b =>
        unfold operand at hop
        split at hop
        · cases hop
        · next hno ho => exact absurd (Operand.constant.inj hop) (hno b)
        · cases hop
      | _ => rfl
    | reference ty name =>
      obtain ⟨b, hb, -, rfl⟩ | ⟨j, hj, -, -, -, rfl⟩ := reference_cases hf hc ht hp hi hv hop
      · exact hl.isLabel_getD (x := .inl b) hb
      · exact hl.isLabel_getD (x := .inr j) hj

theorem mem_lines {p : Paragraph} {l : Line} (hp : p ∈ f.listing) (hl : l ∈ p.lines) :
    ∃ i ∈ f.allInstrs, f.line i = l := by
  obtain ⟨b, hb, rfl⟩ := List.mem_map.mp hp
  obtain ⟨i, hi, rfl⟩ := List.mem_map.mp hl
  exact ⟨i, List.mem_flatMap.mpr ⟨b, hb, hi⟩, rfl⟩

theorem valid_listing (hf : WellFormed f) (hc : f.Consistent) (ht : Typed f) (hp : Readable f)
    (hl : Labelled f) : ∀ it ∈ f.listing.flatMap Paragraph.items, it.Valid := by
  intro it hit
  obtain ⟨p, hmem, hit⟩ := List.mem_flatMap.mp hit
  obtain rfl | hit := List.mem_cons.mp hit
  · obtain ⟨b, hb, rfl⟩ := List.mem_map.mp hmem
    exact hl.isLabel_getD (x := .inl b) hb
  · obtain ⟨l, hln, rfl⟩ := List.mem_map.mp hit
    obtain ⟨i, hi, rfl⟩ := mem_lines hmem hln
    exact ⟨line_lexical hf hc ht hp hl hi, line_typed hc ht hp hi⟩

theorem Labelled.label?_eq_getD (h : Labelled f) {x : BlockId ⊕ InstrId} (hx : f.Written x) :
    f.label? x = some ((f.label? x).getD "?") := by
  obtain ⟨s, hs, -⟩ := h.label x hx
  rw [hs]
  rfl

theorem grounded_listing (hf : WellFormed f) (hc : f.Consistent) (ht : Typed f) (hp : Readable f)
    (hl : Labelled f) : Grounded f.listing := by
  refine ⟨fun p hmem l hln name ho => ?_, fun p hmem l hln ty name hty ho => ?_, ?_⟩
  · obtain ⟨i, hi, rfl⟩ := mem_lines hmem hln
    obtain ⟨n, v, hv, hop⟩ := mem_operands_of_line ho
    obtain ⟨b, hb, -, rfl⟩ | ⟨j, -, hty, -⟩ := reference_cases hf hc ht hp hi hv hop
    · exact ⟨f.paragraph b, List.mem_map_of_mem hb, rfl⟩
    · exact absurd rfl hty
  · obtain ⟨i, hi, rfl⟩ := mem_lines hmem hln
    obtain ⟨n, v, hv, hop⟩ := mem_operands_of_line ho
    obtain ⟨b, hb, hblk, -⟩ | ⟨j, hj, -, hres, rfl, rfl⟩ := reference_cases hf hc ht hp hi hv hop
    · exact absurd hblk hty
    · obtain ⟨b, hb, hj⟩ := List.mem_flatMap.mp hj
      refine ⟨f.paragraph b, List.mem_map_of_mem hb, f.line j, List.mem_map_of_mem hj, ?_⟩
      unfold line resultLabel
      rw [hres]
      rfl
  · intro p hmem l hln q hmem' l' hln' ty ty' name hr hr'
    obtain ⟨i, hi, rfl⟩ := mem_lines hmem hln
    obtain ⟨j, hj, rfl⟩ := mem_lines hmem' hln'
    obtain ⟨v, hv, hr⟩ := Option.map_eq_some_iff.mp hr
    obtain ⟨u, hu, hr'⟩ := Option.map_eq_some_iff.mp hr'
    obtain ⟨rfl, rfl⟩ := Prod.mk.inj hr
    obtain ⟨rfl, hname⟩ := Prod.mk.inj hr'
    have hlabel := hl.label?_eq_getD (x := .inr i) hi
    have hlabel' := hl.label?_eq_getD (x := .inr j) hj
    have hsame : (.inr i : BlockId ⊕ InstrId) = .inr j :=
      hl.differ _ _ _ hi hj hlabel (hlabel'.trans (congrArg some hname))
    cases hsame
    rw [hv] at hu
    cases hu
    rfl

theorem origin_of_operand {v : ValueId} {c : Constant} (h : f.operand v = .constant c) :
    (f.value v).origin = .constant c := by
  unfold operand at h
  split at h
  · cases h
  · next ho =>
    rw [ho, Operand.constant.inj h]
  · cases h

theorem line_args_zero {i : InstrId} {a : ValueId} (ha : (f.instr i).arg 0 = some a) :
    (f.line i).args[0]? = some (f.operand a) := by
  have hslots : List.finRange 3 = [0, 1, 2] := rfl
  unfold line Instr.operands
  rw [hslots, List.filterMap_cons, ha]
  rfl

/-- The slot of a line has the type that its instruction works at. -/
theorem slotTy?_line (hc : f.Consistent) (ht : Typed f) {i : InstrId} (hi : i ∈ f.allInstrs)
    {ty : Ty} (h : (f.line i).slotTy? = some ty) :
    ((f.instr i).op = .loadLocal ∨ (f.instr i).op = .storeLocal) ∧
      (∃ a, (f.instr i).arg 0 = some a) ∧ opTy f (f.instr i) = ty := by
  have haccepted := ht.accepted i hi
  have hop : (f.line i).op = (f.instr i).op := rfl
  unfold Line.slotTy? at h
  rw [hop, line_tys hc, line_result] at h
  unfold opTy argTy
  split at h
  · next hload =>
    rw [hload] at haccepted ⊢
    simp only [accepts, Opcode.kind, argTy?, Bool.and_eq_true, beq_iff_eq,
      Option.map_eq_some_iff] at haccepted
    obtain ⟨⟨⟨-, a, ha, -⟩, -⟩, -⟩ := haccepted
    obtain ⟨v, hv, rfl⟩ := Option.map_eq_some_iff.mp h
    rw [hv]
    exact ⟨.inl rfl, ⟨a, ha⟩, rfl⟩
  · next hstore =>
    rw [hstore] at haccepted ⊢
    simp only [accepts, Opcode.kind, Bool.and_eq_true, beq_iff_eq, Option.isSome_iff_exists,
      Option.isNone_iff_eq_none] at haccepted
    obtain ⟨⟨⟨hres, ha⟩, tyb, hb⟩, hnone⟩ := haccepted
    rw [ha, hb, hnone] at h
    cases h
    obtain ⟨a, ha, -⟩ := Option.map_eq_some_iff.mp ha
    obtain ⟨v, hv, rfl⟩ := Option.map_eq_some_iff.mp hb
    rw [Option.map_eq_none_iff.mp hres, hv]
    exact ⟨.inr rfl, ⟨a, ha⟩, rfl⟩
  · cases h

/-- The slots that a fragment accesses are read. -/
theorem slotFits_line (hc : f.Consistent) (ht : Typed f) (hp : Readable f) {i : InstrId}
    (hi : i ∈ f.allInstrs) : (f.line i).SlotFits := by
  intro ty x hty hx
  obtain ⟨hop, ⟨a, ha⟩, rfl⟩ := slotTy?_line hc ht hi hty
  rw [line_args_zero ha] at hx
  exact hp.slots i hi hop a x ha (origin_of_operand (Option.some.inj hx))

/-- The text of a fragment that was built by the rules is read, if everything that is written has a
label of its own, and what is read reads the same. -/
theorem parse_text (hf : WellFormed f) (hc : f.Consistent) (ht : Typed f) (hp : Readable f)
    (hl : Labelled f) : ∃ g, Parser.parse f.text = .ok g ∧ g.listing = f.listing := by
  refine Parser.parse_of_grounded (valid_listing hf hc ht hp hl)
    (grounded_listing hf hc ht hp hl) ?_ (toList_text hc)
  intro p hmem l hln
  obtain ⟨i, hi, rfl⟩ := mem_lines hmem hln
  exact slotFits_line hc ht hp hi

/-! ### Labels change nothing else -/

namespace Relabels

variable {f' : Fragment}

theorem allInstrs_eq (h : Relabels f f') : f'.allInstrs = f.allInstrs := by
  rw [allInstrs, allInstrs, h.order_eq, funext h.sameLinks.blockInstrs_eq]

theorem op_eq (h : Relabels f f') (i : InstrId) : (f'.instr i).op = (f.instr i).op := by
  rw [h.instr_eq]

theorem result_eq (h : Relabels f f') (i : InstrId) : (f'.instr i).result = (f.instr i).result := by
  rw [h.instr_eq]

theorem arg_eq (h : Relabels f f') (i : InstrId) (n : Slot) :
    (f'.instr i).arg n = (f.instr i).arg n := by
  rw [h.instr_eq]
  rfl

theorem ty_eq (h : Relabels f f') : f'.ty = f.ty :=
  funext fun v => congrArg Value.ty (h.value_eq v)

theorem target?_eq (h : Relabels f f') (i : InstrId) :
    Exit.target? (f'.instr i) = Exit.target? (f.instr i) := by
  unfold Exit.target?
  rw [h.op_eq, h.arg_eq, h.arg_eq]

theorem opTy_eq (h : Relabels f f') (i : InstrId) : opTy f' (f'.instr i) = opTy f (f.instr i) := by
  unfold opTy argTy
  rw [h.result_eq, h.arg_eq, h.ty_eq]

theorem wellFormed (h : Relabels f f') (hf : WellFormed f) : WellFormed f' where
  order_nodup := h.order_eq ▸ hf.order_nodup
  chain b hb := by
    rw [h.sameLinks.blockInstrs_eq]
    exact (hf.chain b (h.order_eq ▸ hb)).sameLinks h.sameLinks
  edges b hb c hc := by
    rw [h.order_eq] at hb ⊢
    rw [h.block_eq] at hc
    exact hf.edges b hb c hc
  target v b ho := by
    rw [h.value_eq] at ho
    exact h.order_eq ▸ hf.target v b ho
  result i hi v hv := by
    rw [h.values_eq, h.value_eq]
    exact hf.result i (h.allInstrs_eq ▸ hi) v (h.result_eq i ▸ hv)
  arg_lt i hi n v hv := by
    rw [h.values_eq]
    exact hf.arg_lt i (h.allInstrs_eq ▸ hi) n v (h.arg_eq i n ▸ hv)
  constant_ty v hv c ho := by
    rw [h.value_eq] at ho ⊢
    exact hf.constant_ty v (h.values_eq ▸ hv) c ho
  localsSize_nonneg := h.localsSize_eq ▸ hf.localsSize_nonneg
  local_le s hs := by
    rw [h.localsSize_eq]
    exact hf.local_le s (h.locals_eq ▸ hs)

theorem typed (h : Relabels f f') (ht : Typed f) : Typed f' where
  accepted i hi := by
    have haccepted := ht.accepted i (h.allInstrs_eq ▸ hi)
    unfold argTy? at haccepted ⊢
    rw [h.op_eq, h.result_eq, h.arg_eq, h.arg_eq, h.arg_eq, h.ty_eq]
    exact haccepted
  named i hi v hv hblk := by
    rw [h.target?_eq] at hv
    rw [h.ty_eq] at hblk
    rw [isConstant, h.value_eq]
    exact ht.named i (h.allInstrs_eq ▸ hi) v hv hblk

theorem readable (h : Relabels f f') (hp : Readable f) : Readable f' where
  data i hi n v hv := by
    rw [h.ty_eq, h.target?_eq]
    exact hp.data i (h.allInstrs_eq ▸ hi) n v (h.arg_eq i n ▸ hv)
  filled i hi hnone := by
    rw [h.arg_eq] at hnone ⊢
    exact hp.filled i (h.allInstrs_eq ▸ hi) hnone
  defined i hi n v j hv ho := by
    rw [h.allInstrs_eq, h.result_eq]
    exact hp.defined i (h.allInstrs_eq ▸ hi) n v j (h.arg_eq i n ▸ hv) (h.value_eq v ▸ ho)
  slots i hi hop a x ha hx := by
    rw [h.opTy_eq]
    rw [h.op_eq] at hop
    exact hp.slots i (h.allInstrs_eq ▸ hi) hop a x (h.arg_eq i 0 ▸ ha) (h.value_eq a ▸ hx)

end Relabels

/-- Writing gives a label of its own to everything that is written, if the labels before differ. -/
theorem labelled_render (hf : WellFormed f) (hd : f.LabelsDiffer)
    (hlabels : ∀ x s, f.Written x → f.label? x = some s → IsLabel s) : f.render.1.Labelled := by
  refine ⟨fun x hx => ?_, labelsDiffer_assignLabels hd⟩
  replace hx := (relabels_assignLabels f).sameLinks.written_iff.mp hx
  obtain ⟨s, hs⟩ := Option.isSome_iff_exists.mp (labelled_assignLabels hf hx)
  exact ⟨s, hs, isLabel_assignLabels hd hlabels hx hs⟩

/-- A fragment that keeps the rules of the building methods comes back: it is written with labels
that tell everything apart, and what is read from there has the same blocks, operations, types,
constants and references. Apart from what `Readable` leaves out, what is built can be read. -/
theorem parse_render_of_readable (hf : WellFormed f) (hc : f.Consistent) (ht : Typed f)
    (hp : Readable f) (hd : f.LabelsDiffer)
    (hlabels : ∀ x s, f.Written x → f.label? x = some s → IsLabel s) :
    f.render.1.Labelled ∧
      ∃ g, Parser.parse f.render.2 = .ok g ∧ g.listing = f.render.1.listing := by
  have hrel := relabels_assignLabels f
  have hlabelled := labelled_render hf hd hlabels
  exact ⟨hlabelled, parse_text (hrel.wellFormed hf) (hrel.consistent hc) (hrel.typed ht)
    (hrel.readable hp) hlabelled⟩

/-! ### A fragment that comes back -/

/-- A word of the context is kept in a slot if it is not zero. -/
def waiting : Fragment where
  values := #[
    { ty := .i32, origin := .constant (.i32 8) }, { ty := .i32, origin := .result ⟨0⟩ },
    { ty := .blk, origin := .constant (.blk ⟨1⟩) }, { ty := .i32, origin := .constant (.i32 0) },
    { ty := .i32, origin := .constant (.i32 0x100) }]
  instrs := #[
    { op := .loadContext, args := slots (some ⟨0⟩), result := some ⟨1⟩, block := ⟨0⟩,
      next := some ⟨1⟩ },
    { op := .branchTrue, args := slots (some ⟨1⟩) (some ⟨2⟩), block := ⟨0⟩, prev := some ⟨0⟩ },
    { op := .storeLocal, args := slots (some ⟨3⟩) (some ⟨1⟩), block := ⟨1⟩, next := some ⟨3⟩ },
    { op := .branch, args := slots (some ⟨4⟩), block := ⟨1⟩, prev := some ⟨2⟩ }]
  blocks := #[{ head := some ⟨0⟩, tail := some ⟨1⟩, edges := [⟨1⟩] },
    { head := some ⟨2⟩, tail := some ⟨3⟩ }]
  order := [⟨0⟩, ⟨1⟩]
  locals := #[⟨.i32, 0⟩]
  localsSize := 4

theorem waiting_wellFormed : WellFormed waiting := by decide

theorem waiting_consistent : waiting.Consistent := by
  have hresult : ∀ i v, (waiting.instr i).result = some v → i = ⟨0⟩ ∧ v = ⟨1⟩ := by
    rintro ⟨n⟩ v hv
    match n, hv with
    | 0, hv =>
      cases hv
      exact ⟨rfl, rfl⟩
    | 1, hv | 2, hv | 3, hv => cases hv
    | n + 4, hv => cases hv
  refine ⟨fun v c ho => waiting_wellFormed.constant_ty v (lt_of_origin ho) c ho, ?_, ?_⟩
  · intro i v hv
    obtain ⟨-, rfl⟩ := hresult i v hv
    decide
  · intro i v hv
    obtain ⟨rfl, rfl⟩ := hresult i v hv
    rfl

theorem waiting_typed : Typed waiting := by decide

theorem waiting_readable : Readable waiting where
  data := by decide
  filled := by decide
  defined := by
    have hdefined : ∀ i ∈ waiting.allInstrs, ∀ n, ∀ v ∈ (waiting.instr i).arg n,
        ∀ j ∈ (waiting.value v).definition?, j ∈ waiting.allInstrs ∧
          (waiting.instr j).result = some v := by decide
    intro i hi n v j hv ho
    refine hdefined i hi n v hv j ?_
    rw [Value.definition?, ho]
    rfl
  slots := by
    have hslots : ∀ i ∈ waiting.allInstrs,
        (waiting.instr i).op = .loadLocal ∨ (waiting.instr i).op = .storeLocal →
        (waiting.instr i).arg 0 = some ⟨3⟩ ∧ opTy waiting (waiting.instr i) = .i32 := by decide
    intro i hi hop a x ha hx
    obtain ⟨ha', hty⟩ := hslots i hi hop
    rw [ha] at ha'
    cases ha'
    cases hx
    rw [hty]
    decide

theorem waiting_unlabelled (x : BlockId ⊕ InstrId) : waiting.label? x = none := by
  match x with
  | .inl ⟨0⟩ | .inl ⟨1⟩ | .inl ⟨_ + 2⟩ => rfl
  | .inr ⟨0⟩ | .inr ⟨1⟩ | .inr ⟨2⟩ | .inr ⟨3⟩ | .inr ⟨_ + 4⟩ => rfl

theorem parse_render_of_readable_waiting : waiting.render.1.Labelled ∧
    ∃ g, Parser.parse waiting.render.2 = .ok g ∧ g.listing = waiting.render.1.listing := by
  have hnone : ∀ x s, waiting.label? x ≠ some s := by simp [waiting_unlabelled]
  exact parse_render_of_readable waiting_wellFormed waiting_consistent waiting_typed
    waiting_readable (fun x _ s _ _ hs _ => absurd hs (hnone x s))
    fun x s _ hs => absurd hs (hnone x s)

end Fragment
end Recompiler.IR
