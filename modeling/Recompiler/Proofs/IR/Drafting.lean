import Recompiler.Proofs.IR.Spelling
import Recompiler.Proofs.IR.Skeleton

/-!
What a draft reads like. Every item that is added to a draft is added to what it reads like, and
resolving a reference does not change that; so the fragment that items describe reads like them.
-/
namespace Recompiler.IR

open Fragment

variable {f f' f'' : Fragment} {b : BlockId} {i j : InstrId} {v : ValueId} {n m : Slot}

namespace Parser.Draft

variable {d d' : Draft} {bs : List BlockId} {l : List InstrId} {op : Opcode}
  {result : Option (Ty × String)}

/-! ### What a draft reads like -/

/-- What is written in a position: an argument, or a reference that is still open. -/
def operand? (d : Draft) (i : InstrId) (n : Slot) : Option Operand :=
  match (d.fragment.instr i).arg n with
  | some v => some (d.fragment.operand v)
  | none =>
    (d.references.find? fun r => r.instr = i ∧ r.slot = n).map fun r => .reference r.ty r.name

def line (d : Draft) (i : InstrId) : Line where
  result := d.fragment.resultLabel i
  op := (d.fragment.instr i).op
  args := (List.finRange 3).filterMap (d.operand? i)

def paragraph (d : Draft) (b : BlockId) : Paragraph where
  name := (d.fragment.block b).label.getD "?"
  lines := (d.fragment.blockInstrs b).map d.line

def listing (d : Draft) : List Paragraph := d.fragment.order.map d.paragraph

/-- Without open references, a draft reads like its fragment. -/
theorem listing_resolved (f : Fragment) : listing ⟨f, []⟩ = f.listing := by
  have hline : line ⟨f, []⟩ = f.line := by
    funext i
    unfold line Fragment.line Instr.operands
    congr 1
    rw [List.map_filterMap]
    congr 1
    funext n
    unfold operand?
    cases (f.instr i).arg n <;> rfl
  unfold listing Fragment.listing paragraph Fragment.paragraph
  rw [hline]

/-- Parts of a fragment that was read in order: its arguments are numbers, and what its references
stand for is still missing, each in a position of its own. -/
structure Placed (d : Draft) : Prop where
  linked : Linked d.fragment
  consistent : d.fragment.Consistent
  plain : ∀ i n v, (d.fragment.instr i).arg n = some v →
    ∃ c, (d.fragment.value v).origin = .constant c ∧ c.ty ≠ .blk
  pending : ∀ r ∈ d.references, d.fragment.Live r.instr ∧
    (d.fragment.instr r.instr).arg r.slot = none
  distinct : d.references.Pairwise fun r s => ¬ (r.instr = s.instr ∧ r.slot = s.slot)

theorem placed_empty : Placed {} where
  linked := linked_empty
  consistent := consistent_empty
  plain i n v h := by
    have hnone : ∀ n : Slot, (default : Instr).arg n = none := Slot.forall rfl rfl rfl
    exact absurd ((hnone n).symm.trans h) (by simp)
  pending r hr := by cases hr
  distinct := .nil

/-- An argument that is a number reads the same wherever it stands. -/
theorem operand_plain {c : Constant} (ho : (f.value v).origin = .constant c) (hc : c.ty ≠ .blk) :
    f.operand v = .constant c := by
  unfold operand
  rw [ho]
  cases c with
  | blk b => exact absurd rfl hc
  | _ => rfl

/-! ### Operands -/

/-- A number that is put in a position. -/
theorem arg_number (hi : i.index < f.instrs.size) (k : Constant) (j : InstrId) (m : Slot) :
    (((f.addConstant k).1.setArg i n (f.addConstant k).2).instr j).arg m =
      if j = i ∧ m = n then some (f.addConstant k).2 else (f.instr j).arg m :=
  arg_setArg (f := (f.addConstant k).1) hi j m

theorem origin_number (k : Constant) :
    (((f.addConstant k).1.setArg i n (f.addConstant k).2).value (f.addConstant k).2).origin =
      .constant k := by
  rw [(sameValues_setArg _ i n _).origin_eq]
  exact congrArg Value.origin (value_addValue_new _)

theorem sameSkeleton_addOperand (d : Draft) (i : InstrId) (n : Slot) (o : Operand) :
    SameSkeleton d.fragment (d.addOperand i n o).fragment := by
  cases o with
  | reference ty name => exact .refl _
  | constant k => exact (sameSkeleton_addConstant _ k).trans (sameSkeleton_setArg _ i n _)

/-- A number is no block. -/
theorem ty_ne_blk {c : Constant} (h : (Operand.constant c).Lexical) : c.ty ≠ .blk := by
  cases c with
  | blk b => cases h
  | _ => simp [Constant.ty]

theorem arg_of_operand? (h : d.operand? i n = none) : (d.fragment.instr i).arg n = none := by
  unfold operand? at h
  split at h
  · cases h
  · assumption

theorem find?_of_operand? (h : d.operand? i n = none) :
    d.references.find? (fun r => r.instr = i ∧ r.slot = n) = none := by
  unfold operand? at h
  split at h
  · cases h
  · exact Option.map_eq_none_iff.mp h

theorem operand?_addOperand (h : Placed d) (hi : d.fragment.Live i) (hfree : d.operand? i n = none)
    {o : Operand} (ho : o.Lexical) (j : InstrId) (m : Slot) :
    (d.addOperand i n o).operand? j m = if j = i ∧ m = n then some o else d.operand? j m := by
  cases o with
  | reference ty name =>
    unfold operand? addOperand
    dsimp only
    rw [List.find?_cons]
    by_cases hjm : j = i ∧ m = n
    · obtain ⟨rfl, rfl⟩ := hjm
      rw [arg_of_operand? hfree]
      simp
    · have : ¬ (i = j ∧ n = m) := fun e => hjm ⟨e.1.symm, e.2.symm⟩
      rw [if_neg hjm]
      simp only [this, decide_false]
  | constant k =>
    unfold operand? addOperand
    dsimp only
    rw [arg_number hi.1]
    by_cases hjm : j = i ∧ m = n
    · rw [if_pos hjm, if_pos hjm]
      dsimp only
      rw [operand_plain (origin_number k) (ty_ne_blk ho)]
    · rw [if_neg hjm, if_neg hjm]
      cases ha : (d.fragment.instr j).arg m with
      | none => rfl
      | some v =>
        obtain ⟨c, hc, -⟩ := h.plain j m v ha
        exact congrArg some
          ((sameSkeleton_addOperand d i n (.constant k)).operand_eq (lt_of_origin hc))

theorem placed_addOperand (h : Placed d) (hi : d.fragment.Live i) (hfree : d.operand? i n = none)
    {o : Operand} (ho : o.Lexical) : Placed (d.addOperand i n o) := by
  cases o with
  | reference ty name =>
    refine ⟨h.linked, h.consistent, h.plain, fun r hr => ?_,
      List.pairwise_cons.mpr ⟨fun r hr => ?_, h.distinct⟩⟩
    · rcases List.mem_cons.mp hr with rfl | hr
      · exact ⟨hi, arg_of_operand? (d := d) hfree⟩
      · exact h.pending r hr
    · rintro ⟨rfl, rfl⟩
      have := List.find?_eq_none.mp (find?_of_operand? hfree) r hr
      simp at this
  | constant k =>
    have hnew : (d.fragment.addConstant k).2.index < (d.fragment.addConstant k).1.values.size := by
      simp [addConstant, addValue]
    have harg := arg_number (n := n) hi.1 k
    have hskel := sameSkeleton_addOperand d i n (.constant k)
    refine ⟨(h.linked.addConstant k).setArg hi hnew, (h.consistent.addConstant k).setArg i n _, ?_,
      ?_, h.distinct⟩
    · intro j m v hv
      have hv := (harg j m).symm.trans hv
      split at hv
      · cases hv
        exact ⟨k, origin_number k, ty_ne_blk ho⟩
      · obtain ⟨c, hc, hty⟩ := h.plain j m v hv
        exact ⟨c, (hskel.origin_eq v (lt_of_origin hc)).trans hc, hty⟩
    · intro r hr
      obtain ⟨hlive, hnone⟩ := h.pending r hr
      refine ⟨hskel.links.live_iff.mpr hlive, (harg r.instr r.slot).trans ?_⟩
      rw [if_neg]
      · exact hnone
      · intro e
        have := List.find?_eq_none.mp (find?_of_operand? hfree) r hr
        simp [e.1, e.2] at this

theorem addOperands_spec (args : List (Slot × Operand)) (h : Placed d) (hi : d.fragment.Live i)
    (hslots : (args.map (·.1)).Nodup) (hfree : ∀ p ∈ args, d.operand? i p.1 = none)
    (hargs : ∀ p ∈ args, p.2.Lexical) :
    Placed (d.addOperands i args) ∧ SameSkeleton d.fragment (d.addOperands i args).fragment ∧
      (∀ j m, j ≠ i → (d.addOperands i args).operand? j m = d.operand? j m) ∧
      ∀ m, (d.addOperands i args).operand? i m =
        ((args.find? (·.1 = m)).map (·.2)).or (d.operand? i m) := by
  induction args generalizing d with
  | nil => exact ⟨h, .refl _, fun _ _ _ => rfl, fun _ => by simp [addOperands]⟩
  | cons p args ih =>
    have hp := hfree p (by simp)
    have ho := hargs p (by simp)
    have hview := operand?_addOperand h hi hp ho
    obtain ⟨hnotin, hnodup⟩ := List.nodup_cons.mp hslots
    have hlive : (d.addOperand i p.1 p.2).fragment.Live i :=
      (sameSkeleton_addOperand d i p.1 p.2).links.live_iff.mpr hi
    obtain ⟨hplaced, hskel, hother, hself⟩ := ih (placed_addOperand h hi hp ho) hlive hnodup
      (fun q hq => by
        rw [hview, if_neg]
        · exact hfree q (by simp [hq])
        · rintro ⟨-, e⟩
          exact hnotin (List.mem_map.mpr ⟨q, hq, e⟩))
      (fun q hq => hargs q (by simp [hq]))
    refine ⟨hplaced, (sameSkeleton_addOperand d i p.1 p.2).trans hskel, fun j m hj =>
      ?_, fun m => ?_⟩
    · exact (hother j m hj).trans (by rw [hview, if_neg fun e => hj e.1])
    · refine (hself m).trans ?_
      rw [hview, List.find?_cons]
      by_cases hm : p.1 = m
      · subst hm
        have hnone : args.find? (fun q => decide (q.1 = p.1)) = none := by
          rw [List.find?_eq_none]
          intro q hq e
          exact hnotin (List.mem_map.mpr ⟨q, hq, of_decide_eq_true e⟩)
        simp [hnone]
      · simp [hm, Ne.symm hm]

/-! ### Instructions -/

/-- The last block is `b`, behind `bs`; it holds `l`, and the next instruction goes to its end. -/
structure At (d : Draft) (bs : List BlockId) (b : BlockId) (l : List InstrId) : Prop where
  order_eq : d.fragment.order = bs ++ [b]
  chain : d.fragment.Chain b l
  point_eq : d.fragment.point = ⟨some b, l.getLast?⟩

/-- The instruction `i` was added behind all others, and is written without arguments so far. -/
structure Started (d d' : Draft) (bs : List BlockId) (b : BlockId) (l : List InstrId)
    (op : Opcode) (result : Option (Ty × String)) (i : InstrId) : Prop where
  id_eq : i = ⟨d.fragment.instrs.size⟩
  placed : Placed d'
  live : d'.fragment.Live i
  at_ : At d' bs b (l ++ [i])
  blockLabel_eq : ∀ c, (d'.fragment.block c).label = (d.fragment.block c).label
  chains : ∀ c l, c ≠ b → d.fragment.Chain c l → d'.fragment.Chain c l
  line_eq : ∀ j : InstrId, j.index < d.fragment.instrs.size → d'.line j = d.line j
  resultLabel_eq : d'.fragment.resultLabel i = result
  op_eq : (d'.fragment.instr i).op = op
  operand?_eq : ∀ n, d'.operand? i n = none

/-- An instruction as it is added, before it has a label. -/
theorem appendInstr_spec (h : Placed d) (hat : At d bs b l) (op : Opcode) (ty : Option Ty) :
    Started d { d with fragment := (d.fragment.appendInstr op ty).1 } bs b l op
      (ty.map (·, "?")) ⟨d.fragment.instrs.size⟩ := by
  have hchain : d.fragment.Chain b (l ++ []) := by simpa using hat.chain
  have he := emitted_appendInstr hchain hat.point_eq op ty
  obtain ⟨hlinked, hlive⟩ := h.linked.appendInstr_at op ty hchain hat.point_eq
  obtain ⟨hlabel, hnew, hblock⟩ := label_appendInstr hat.chain hat.point_eq op ty
  have hcons := h.consistent.emitted he
  have harg : ∀ j : InstrId, j.index < d.fragment.instrs.size → ∀ n,
      ((d.fragment.appendInstr op ty).1.instr j).arg n = (d.fragment.instr j).arg n :=
    fun j hj n => congrArg (·.get n) (he.grows.args_eq j hj)
  have hnone : ∀ j : InstrId, d.fragment.instrs.size ≤ j.index → ∀ n,
      ((d.fragment.appendInstr op ty).1.instr j).arg n = none := by
    intro j hj n
    by_cases hlt : j.index < (d.fragment.appendInstr op ty).1.instrs.size
    · rw [he.size_instrs] at hlt
      obtain rfl : j = ⟨d.fragment.instrs.size⟩ :=
        InstrId.ext_index (Nat.le_antisymm (Nat.le_of_lt_succ hlt) hj)
      rw [he.arg_eq, List.getElem?_nil]
    · exact arg_eq_none (Nat.not_lt.mp hlt) n
  -- No reference waits for an instruction that is new.
  have hfind : ∀ n, d.references.find? (fun r => r.instr = ⟨d.fragment.instrs.size⟩ ∧ r.slot = n) =
      none := by
    intro n
    rw [List.find?_eq_none]
    intro r hr e
    have hlt := (h.pending r hr).1.1
    rw [(of_decide_eq_true e).1] at hlt
    exact Nat.lt_irrefl _ hlt
  refine ⟨rfl, ⟨hlinked, hcons, ?_, ?_, h.distinct⟩, hlive, ⟨?_, he.chain, ?_⟩, hblock,
    he.chains, ?_, ?_,
    he.op_eq, ?_⟩
  · intro j n v hv
    by_cases hj : j.index < d.fragment.instrs.size
    · obtain ⟨c, hc, hty⟩ := h.plain j n v ((harg j hj n).symm.trans hv)
      exact ⟨c, (he.grows.origin_eq v (lt_of_origin hc)).trans hc, hty⟩
    · exact absurd ((hnone j (Nat.not_lt.mp hj) n).symm.trans hv) (by simp)
  · intro r hr
    obtain ⟨hr, hno⟩ := h.pending r hr
    refine ⟨?_, (harg r.instr hr.1 r.slot).trans hno⟩
    obtain ⟨l', hl', hm⟩ := h.linked.listed r.instr hr
    by_cases hb : (d.fragment.instr r.instr).block = b
    · rw [hb] at hl'
      rw [hl'.unique hat.chain] at hm
      exact he.chain.mem_live (by simp [hm])
    · exact (he.chains _ l' hb hl').mem_live hm
  · exact he.order_eq.trans hat.order_eq
  · rw [List.getLast?_concat]
    exact he.point_eq
  · intro j hj
    have hres : (d.fragment.appendInstr op ty).1.resultLabel j = d.fragment.resultLabel j := by
      unfold resultLabel
      rw [he.grows.result_eq j hj, hlabel j hj]
      cases hr : (d.fragment.instr j).result with
      | none => rfl
      | some v =>
        have hv := h.consistent.result_lt j v hr
        rw [Option.map_some, Option.map_some, Fragment.ty, he.grows.ty_eq v hv, ← Fragment.ty]
    have hops : ∀ n, operand? { d with fragment := (d.fragment.appendInstr op ty).1 } j n =
        d.operand? j n := by
      intro n
      unfold operand?
      dsimp only
      rw [harg j hj n]
      cases ha : (d.fragment.instr j).arg n with
      | none => rfl
      | some v =>
        obtain ⟨c, hc, hty⟩ := h.plain j n v ha
        have hc' := (he.grows.origin_eq v (lt_of_origin hc)).trans hc
        exact congrArg some ((operand_plain hc' hty).trans (operand_plain hc hty).symm)
    unfold line
    dsimp only
    rw [hres, he.grows.op_eq j hj]
    congr 2
    funext n
    exact hops n
  · dsimp only
    unfold resultLabel
    rw [he.result_eq, hnew]
    cases ty with
    | none => rfl
    | some t =>
      dsimp only [Option.map_some, Option.getD_none]
      rw [Fragment.ty, (he.value_eq t rfl).1]
  · intro n
    unfold operand?
    dsimp only
    rw [hnone ⟨d.fragment.instrs.size⟩ (Nat.le_refl _) n]
    dsimp only
    rw [hfind n]
    rfl

theorem Started.setLabel {t : Ty} {i : InstrId} (h : Started d d' bs b l op (some (t, "?")) i)
    (name : String) : Started d { d' with fragment := d'.fragment.setInstrLabel i name } bs b l op
      (some (t, name)) i := by
  have hlinks := sameLinks_setInstrLabel d'.fragment i name
  have hinstr : ∀ j, (d'.fragment.setInstrLabel i name).instr j =
      if j = i ∧ j.index < d'.fragment.instrs.size then
        { d'.fragment.instr j with label := some name } else d'.fragment.instr j :=
    fun j => instr_modifyInstr _ _ _ _
  have hsame : ∀ j, ((d'.fragment.setInstrLabel i name).instr j).op = (d'.fragment.instr j).op ∧
      ((d'.fragment.setInstrLabel i name).instr j).result = (d'.fragment.instr j).result ∧
      ∀ n, ((d'.fragment.setInstrLabel i name).instr j).arg n = (d'.fragment.instr j).arg n := by
    intro j
    rw [hinstr]
    split <;> exact ⟨rfl, rfl, fun _ => rfl⟩
  have hop? : ∀ j n, operand? { d' with fragment := d'.fragment.setInstrLabel i name } j n =
      d'.operand? j n := by
    intro j n
    unfold operand?
    dsimp only
    rw [(hsame j).2.2 n]
    cases ha : (d'.fragment.instr j).arg n with
    | none => rfl
    | some v =>
      obtain ⟨c, hc, hty⟩ := h.placed.plain j n v ha
      exact congrArg some ((operand_plain (f := d'.fragment.setInstrLabel i name) hc hty).trans
        (operand_plain hc hty).symm)
  refine ⟨h.id_eq, ⟨h.placed.linked.setInstrLabel i name, ⟨h.placed.consistent.constant_ty, ?_, ?_⟩,
    ?_, ?_, h.placed.distinct⟩, hlinks.live_iff.mpr h.live, ⟨h.at_.order_eq,
    h.at_.chain.sameLinks hlinks, h.at_.point_eq⟩, h.blockLabel_eq,
    fun c l hc hl => (h.chains c l hc hl).sameLinks hlinks, ?_, ?_, (hsame i).1.trans h.op_eq,
    fun n => (hop? i n).trans (h.operand?_eq n)⟩
  · intro j v hv
    exact h.placed.consistent.result_lt j v ((hsame j).2.1.symm.trans hv)
  · intro j v hv
    exact h.placed.consistent.result_origin j v ((hsame j).2.1.symm.trans hv)
  · intro j n v hv
    exact h.placed.plain j n v (((hsame j).2.2 n).symm.trans hv)
  · intro r hr
    obtain ⟨hlive, hno⟩ := h.placed.pending r hr
    exact ⟨hlinks.live_iff.mpr hlive, ((hsame r.instr).2.2 r.slot).trans hno⟩
  · intro j hj
    have hji : j ≠ i := by
      rintro rfl
      rw [h.id_eq] at hj
      exact Nat.lt_irrefl _ hj
    rw [← h.line_eq j hj]
    unfold line
    dsimp only
    rw [(hsame j).1]
    congr 1
    · unfold resultLabel
      rw [hinstr, if_neg fun e => hji e.1]
      rfl
    · congr 1
      funext n
      exact hop? j n
  · have hres := h.resultLabel_eq
    unfold resultLabel at hres ⊢
    dsimp only
    rw [hinstr, if_pos ⟨rfl, h.live.1⟩]
    cases hr : (d'.fragment.instr i).result with
    | none =>
      rw [hr] at hres
      cases hres
    | some v =>
      rw [hr] at hres
      have hty := congrArg (Option.map Prod.fst) hres
      simp only [Option.map_some, Option.some.injEq] at hty
      exact congrArg (fun t => some (t, name)) hty

theorem addInstr_spec (h : Placed d) (hat : At d bs b l) (op : Opcode)
    (result : Option (Ty × String)) :
    Started d (d.addInstr op result) bs b l op result ⟨d.fragment.instrs.size⟩ := by
  have hid : ∀ ty, (d.fragment.appendInstr op ty).2 = ⟨d.fragment.instrs.size⟩ := by
    intro ty
    rw [appendInstr_eq op ty hat.point_eq]
  cases result with
  | none => exact appendInstr_spec h hat op none
  | some r =>
    have hs := (appendInstr_spec h hat op (some r.1)).setLabel r.2
    rw [← hid (some r.1)] at hs ⊢
    exact hs

/-! ### Lines and blocks -/

/-- Local slots do not change what is written. -/
theorem reserveLocal_eq {i : InstrId} {op : Opcode} {result : Option Ty} {args : List Ty}
    {f f' : Fragment} (h : reserveLocal i op result args f = .ok f') :
    ∃ ls size, f' = { f with locals := ls, localsSize := size } := by
  have hreserve : ∀ {ty offset}, (f.reserveLocal ty offset).map (·.1) = .ok f' →
      ∃ ls size, f' = { f with locals := ls, localsSize := size } := by
    intro ty offset h
    unfold Fragment.reserveLocal at h
    split at h
    · cases h
      exact ⟨_, _, rfl⟩
    · split_ifs at h
      · cases h
      · cases h
        exact ⟨_, _, rfl⟩
  unfold reserveLocal at h
  dsimp only at h
  split at h
  · split at h
    · exact hreserve h
    · cases h
      exact ⟨_, _, rfl⟩
  · cases h
    exact ⟨_, _, rfl⟩

theorem addLine_eq (d : Draft) (l : Line) : ∃ ls size, d.addLine l =
    { d.addCode l with
      fragment := { (d.addCode l).fragment with locals := ls, localsSize := size } } := by
  unfold addLine
  cases h : d.slotted l with
  | error e => exact ⟨_, _, rfl⟩
  | ok f =>
    obtain ⟨ls, size, rfl⟩ := reserveLocal_eq h
    exact ⟨ls, size, rfl⟩

theorem Placed.withLocals (h : Placed d) (ls : Array Local) (size : Int) :
    Placed { d with fragment := { d.fragment with locals := ls, localsSize := size } } where
  linked := h.linked.congr ⟨rfl, fun _ => rfl, fun _ => rfl, rfl, rfl, fun _ => rfl, fun _ => rfl,
    fun _ => rfl, fun _ => rfl, rfl⟩ ⟨fun _ => rfl, fun _ => rfl⟩
  consistent := h.consistent.withLocals ls size
  plain := h.plain
  pending := h.pending
  distinct := h.distinct

theorem filterMap_getElem? {os : List Operand} (h : os.length ≤ 3) :
    (List.finRange 3).filterMap (fun n => os[n.val]?) = os := by
  have hslots : List.finRange 3 = [0, 1, 2] := rfl
  rw [hslots]
  match os, h with
  | [], _ => rfl
  | [_], _ => rfl
  | [_, _], _ => rfl
  | [_, _, _], _ => rfl

theorem find?_zip {os : List Operand} (m : Slot) :
    (((List.finRange 3).zip os).find? (·.1 = m)).map (·.2) = os[m.val]? := by
  have hslots : List.finRange 3 = [0, 1, 2] := rfl
  rw [hslots]
  refine Slot.forall (P := fun m => ((([0, 1, 2] : List Slot).zip os).find? (·.1 = m)).map (·.2) =
    os[m.val]?) ?_ ?_ ?_ m <;>
  · match os with
    | [] => rfl
    | [_] => rfl
    | [_, _] => rfl
    | _ :: _ :: _ :: _ => rfl

/-- The code of a line is an instruction with the operands that were written. -/
theorem addCode_spec {ln : Line} (h : Placed d) (hat : At d bs b l)
    (hargs : ∀ o ∈ ln.args, o.Lexical) :
    Placed (d.addCode ln) ∧
      SameSkeleton (d.addInstr ln.op ln.result).fragment (d.addCode ln).fragment ∧
      (∀ j m, j ≠ ⟨d.fragment.instrs.size⟩ →
        (d.addCode ln).operand? j m = (d.addInstr ln.op ln.result).operand? j m) ∧
      ∀ m, (d.addCode ln).operand? ⟨d.fragment.instrs.size⟩ m = ln.args[m.val]? := by
  have hs := addInstr_spec h hat ln.op ln.result
  have hid : (d.fragment.appendInstr ln.op (ln.result.map (·.1))).2 = ⟨d.fragment.instrs.size⟩ := by
    rw [appendInstr_eq ln.op _ hat.point_eq]
  obtain ⟨hplaced, hskel, hother, hself⟩ := addOperands_spec
    ((List.finRange 3).zip ln.args) hs.placed hs.live
    (by
      rw [List.zip_eq_zip_take_min, List.map_fst_zip (by simp)]
      exact (List.nodup_finRange 3).sublist (List.take_sublist _ _))
    (fun p _ => hs.operand?_eq p.1) (fun p hp => hargs p.2 (List.of_mem_zip hp).2)
  unfold addCode
  rw [hid]
  refine ⟨hplaced, hskel, hother, fun m => ?_⟩
  rw [hself, hs.operand?_eq, find?_zip, Option.or_none]

/-- A line that is added reads as it was written, and the others read as before. -/
theorem line_addLine {ln : Line} (h : Placed d) (hat : At d bs b l) (hlen : ln.args.length ≤ 3)
    (hargs : ∀ o ∈ ln.args, o.Lexical) :
    Placed (d.addLine ln) ∧ At (d.addLine ln) bs b (l ++ [⟨d.fragment.instrs.size⟩]) ∧
    (∀ c, ((d.addLine ln).fragment.block c).label = (d.fragment.block c).label) ∧
    (∀ c l, c ≠ b → d.fragment.Chain c l → (d.addLine ln).fragment.Chain c l) ∧
    (∀ j : InstrId, j.index < d.fragment.instrs.size → (d.addLine ln).line j = d.line j) ∧
    (d.addLine ln).line ⟨d.fragment.instrs.size⟩ = ln := by
  have hs := addInstr_spec h hat ln.op ln.result
  obtain ⟨hplaced, hskel, hother, hself⟩ := addCode_spec h hat hargs
  obtain ⟨ls, size, hline⟩ := addLine_eq d ln
  rw [hline]
  refine ⟨hplaced.withLocals ls size, ⟨?_, ?_, ?_⟩, ?_, ?_, ?_, ?_⟩
  · exact hskel.links.order_eq.trans hs.at_.order_eq
  · have hc := hs.at_.chain.sameLinks hskel.links
    exact hc.congr hc.block_lt rfl rfl hc.lt fun _ _ => ⟨rfl, rfl, rfl, rfl⟩
  · exact hskel.links.point_eq.trans hs.at_.point_eq
  · intro c
    exact (hskel.blockLabel_eq c).trans (hs.blockLabel_eq c)
  · intro c l' hc hl'
    have hc := (hs.chains c l' hc hl').sameLinks hskel.links
    exact hc.congr hc.block_lt rfl rfl hc.lt fun _ _ => ⟨rfl, rfl, rfl, rfl⟩
  · intro j hj
    have hji : j ≠ ⟨d.fragment.instrs.size⟩ := by
      rintro rfl
      exact Nat.lt_irrefl _ hj
    rw [← hs.line_eq j hj]
    unfold line
    refine congr (congrArg₂ Line.mk ?_ ?_) ?_
    · exact hskel.resultLabel_eq hs.placed.consistent j
    · exact hskel.op_eq j
    · congr 1
      funext n
      exact hother j n hji
  · unfold line
    refine (congr (congrArg₂ Line.mk ?_ ?_) ?_).trans (c := ln) rfl
    · exact (hskel.resultLabel_eq hs.placed.consistent _).trans hs.resultLabel_eq
    · exact (hskel.op_eq _).trans hs.op_eq
    · refine Eq.trans ?_ (filterMap_getElem? hlen)
      congr 1
      funext n
      exact hself n

theorem listing_at (hat : At d bs b l) : d.listing = bs.map d.paragraph ++ [d.paragraph b] := by
  rw [listing, hat.order_eq, List.map_append]
  rfl

theorem listing_addLine {ln : Line} (h : Placed d) (hat : At d bs b l) (hlen : ln.args.length ≤ 3)
    (hargs : ∀ o ∈ ln.args, o.Lexical) : (d.addLine ln).listing =
      bs.map d.paragraph ++ [⟨(d.paragraph b).name, (d.paragraph b).lines ++ [ln]⟩] := by
  obtain ⟨-, hat', hlabel, hchains, hold, hnew⟩ := line_addLine h hat hlen hargs
  have hnodup := order_nodup h.linked
  rw [hat.order_eq] at hnodup
  have hlines : ∀ c l', d.fragment.Chain c l' → l'.map (d.addLine ln).line = l'.map d.line := by
    intro c l' hl'
    exact List.map_congr_left fun j hj => hold j (hl'.lt j hj)
  rw [listing_at hat']
  congr 1
  · refine List.map_congr_left fun c hc => ?_
    have hcb : c ≠ b := fun e => (List.nodup_append.mp hnodup).2.2 c hc b (by simp) e
    obtain ⟨l', hl'⟩ := h.linked.chain c
      (lt_of_mem_order h.linked (by rw [hat.order_eq]; simp [hc]))
    unfold paragraph
    rw [hlabel, (hchains c l' hcb hl').blockInstrs_eq, hl'.blockInstrs_eq, hlines c l' hl']
  · unfold paragraph
    rw [hlabel, hat'.chain.blockInstrs_eq, hat.chain.blockInstrs_eq, List.map_append,
      hlines b l hat.chain, List.map_singleton, hnew]

/-- A heading starts a paragraph without lines. -/
theorem addBlock_spec (h : Placed d) (name : String) : Placed (d.addBlock name) ∧
    At (d.addBlock name) d.fragment.order ⟨d.fragment.blocks.size⟩ [] ∧
    (d.addBlock name).listing = d.listing ++ [⟨name, []⟩] := by
  have hlinked : Linked (d.addBlock name).fragment := by
    refine Linked.atEndOf (Linked.modifyBlock h.linked.appendBlock _ (fun _ => rfl) fun _ => rfl) ?_
    simp [setBlockLabel]
  have hold : ∀ c : BlockId, c.index < d.fragment.blocks.size →
      (d.addBlock name).fragment.block c = d.fragment.block c := by
    intro c hc
    have hne : c ≠ ⟨d.fragment.blocks.size⟩ := by
      rintro rfl
      exact Nat.lt_irrefl _ hc
    refine (block_modifyBlock _ _ _ _).trans ?_
    rw [if_neg fun e => hne e.1]
    exact block_push_lt hc
  have hnew : (d.addBlock name).fragment.block ⟨d.fragment.blocks.size⟩ =
      { label := some name } := by
    refine (block_modifyBlock _ _ _ _).trans ?_
    rw [if_pos ⟨rfl, by simp⟩]
    have hpush : d.fragment.appendBlock.1.block ⟨d.fragment.blocks.size⟩ = {} :=
      getD_push_self _ _ _
    exact congrArg (fun blk : Block => { blk with label := some name }) hpush
  have hchain : ∀ c l', d.fragment.Chain c l' → (d.addBlock name).fragment.Chain c l' := by
    intro c l' hl'
    refine hl'.congr ?_ (by rw [hold c hl'.block_lt]) (by rw [hold c hl'.block_lt]) hl'.lt
      fun _ _ => ⟨rfl, rfl, rfl, rfl⟩
    simpa [addBlock, appendBlock, setBlockLabel, atEndOf, setPoint] using
      Nat.lt_succ_of_lt hl'.block_lt
  have hempty : (d.addBlock name).fragment.Chain ⟨d.fragment.blocks.size⟩ [] := by
    refine ⟨?_, by rw [hnew]; rfl, by rw [hnew]; rfl, by simp, by simp, List.nodup_nil, by simp,
      by simp, by simp⟩
    simp [addBlock, appendBlock, setBlockLabel, atEndOf, setPoint]
  have hline : ∀ i, (d.addBlock name).line i = d.line i := by
    intro i
    unfold line
    refine congrArg (Line.mk _ _) ?_
    congr 1
    funext n
    unfold operand?
    change (match (d.fragment.instr i).arg n with | some v => _ | none => _) = _
    cases ha : (d.fragment.instr i).arg n with
    | none => rfl
    | some v =>
      obtain ⟨c, hc, hty⟩ := h.plain i n v ha
      exact congrArg some ((operand_plain (f := (d.addBlock name).fragment) hc hty).trans
        (operand_plain hc hty).symm)
  refine ⟨⟨hlinked, ⟨h.consistent.constant_ty, h.consistent.result_lt, h.consistent.result_origin⟩,
    h.plain, h.pending, h.distinct⟩, ⟨rfl, hempty, ?_⟩, ?_⟩
  · change InsertPoint.mk _ ((d.addBlock name).fragment.block ⟨d.fragment.blocks.size⟩).tail = _
    rw [hnew]
    rfl
  · change (d.fragment.order ++ [(⟨d.fragment.blocks.size⟩ : BlockId)]).map
      (d.addBlock name).paragraph = _
    rw [List.map_append, List.map_singleton, listing]
    congr 1
    · refine List.map_congr_left fun c hc => ?_
      obtain ⟨l', hl'⟩ := h.linked.chain c (lt_of_mem_order h.linked hc)
      unfold paragraph
      rw [hold c hl'.block_lt, (hchain c l' hl').blockInstrs_eq, hl'.blockInstrs_eq]
      exact congrArg (Paragraph.mk _) (List.map_congr_left fun i _ => hline i)
    · unfold paragraph
      rw [hnew, hempty.blockInstrs_eq]
      rfl

/-! ### Listings -/

/-- Lines are added to the last paragraph. -/
theorem addLines_spec (ls : List Line) (h : Placed d) (hat : At d bs b l)
    (hls : ∀ ln ∈ ls, ln.Lexical ∧ ln.Typed) :
    Placed ((ls.map Item.instr).foldl add d) ∧
      ((ls.map Item.instr).foldl add d).listing =
        bs.map d.paragraph ++ [⟨(d.paragraph b).name, (d.paragraph b).lines ++ ls⟩] := by
  induction ls generalizing d l with
  | nil =>
    refine ⟨h, ?_⟩
    rw [List.append_nil]
    exact listing_at hat
  | cons ln ls ih =>
    obtain ⟨hlex, htyped⟩ := hls ln (by simp)
    have hlen := htyped.length_args_le
    obtain ⟨hplaced, hat', -⟩ := line_addLine h hat hlen hlex.args
    obtain ⟨hplaced', hlisting⟩ := ih hplaced hat' fun x hx => hls x (by simp [hx])
    refine ⟨hplaced', hlisting.trans ?_⟩
    have hview := (listing_at hat').symm.trans (listing_addLine h hat hlen hlex.args)
    obtain ⟨hinit, hlast⟩ := List.append_inj' hview rfl
    rw [hinit, List.singleton_inj.mp hlast]
    simp

/-- Paragraphs are added one after the other. -/
theorem addParagraphs_spec {ps : List Paragraph} (h : Placed d)
    (hps : ∀ it ∈ ps.flatMap Paragraph.items, it.Valid) :
    Placed ((ps.flatMap Paragraph.items).foldl add d) ∧
      ((ps.flatMap Paragraph.items).foldl add d).listing = d.listing ++ ps := by
  induction ps generalizing d with
  | nil => exact ⟨h, by simp⟩
  | cons p ps ih =>
    obtain ⟨hplaced, hat, hlisting⟩ := addBlock_spec h p.name
    have hview := (listing_at hat).symm.trans hlisting
    obtain ⟨hinit, hlast⟩ := List.append_inj' hview rfl
    obtain ⟨hplaced', hlisting'⟩ := addLines_spec p.lines hplaced hat fun ln hln =>
      hps (.instr ln) (List.mem_flatMap.mpr ⟨p, by simp, by simp [Paragraph.items, hln]⟩)
    rw [List.flatMap_cons, List.foldl_append]
    obtain ⟨hplaced'', hlisting''⟩ := ih hplaced' fun it hit =>
      hps it (by rw [List.flatMap_cons]; exact List.mem_append_right _ hit)
    refine ⟨hplaced'', hlisting''.trans ?_⟩
    have hp : ((p.lines.map Item.instr).foldl add (d.addBlock p.name)).listing =
      d.listing ++ [p] := by
      rw [hlisting', hinit, List.singleton_inj.mp hlast]
      simp
    change ((p.lines.map Item.instr).foldl add (d.addBlock p.name)).listing ++ ps = _
    rw [hp]
    simp

end Parser.Draft
end Recompiler.IR
