import Recompiler.Pass.Fold
import Recompiler.Proofs.Pass.Stages

/-!
Rules for constant operands yield what the instruction yields, for every operation and every
operand.
-/
namespace Recompiler.Pass.Fold

open IR Interp Meaning

variable {σ : Type} {g : Guest σ} {off : Offsets} {m : Memory σ} {o : Operands} {rule : Rule}

/-! ### Rules -/

theorem s_eq_signed {n : Slot} {ty : Ty} (h : o.types.get n = some ty) :
    o.s n = Eval.signed ty (o.u n) := by
  unfold Operands.s Eval.signed
  rw [h]
  cases ty <;> rfl

/-- What a rule predicts as the result. -/
def Outcome.result (o : Operands) : Outcome → UInt64
  | .bits b => b
  | .operand n => o.u n

/-- A rule is exact if it predicts what the operation computes, whatever the operands are. -/
def Exact (rule : Rule) : Prop :=
  ∀ o : Operands, o.types.get 0 = some rule.arg0 → o.types.get 1 = rule.arg1 →
    Eval.apply rule.op rule.result rule.arg0 (rule.arg1.getD .i64) (o.u 0) (o.u 1) (o.u 2) =
      .ok ((rule.apply o).result o)

/-- A rule for numbers is exact if it predicts what the operation computes. -/
theorem exact_of_compute {rule : Rule} (h₀ : rule.arg0.bits ≠ 0)
    (h₁ : (rule.arg1.getD .i64).bits ≠ 0)
    (h : ∀ o : Operands, o.types.get 0 = some rule.arg0 → o.types.get 1 = rule.arg1 →
      Eval.compute rule.op rule.result rule.arg0 (rule.arg1.getD .i64) (o.u 0) (o.u 1) (o.u 2) =
        .ok ((rule.apply o).result o)) : Exact rule := by
  intro o ht₀ ht₁
  rw [Eval.apply_eq h₀ h₁]
  exact h o ht₀ ht₁

theorem exact_compares {ty : Ty} (hty : ty.bits ≠ 0) {op : Opcode} {p : Operands → Bool}
    (h : (op, p) ∈ compares) :
    Exact ⟨op, .i8, ty, some ty, [0, 1], fun o => .bits (p o).toUInt64⟩ := by
  refine exact_of_compute hty hty fun o h₀ h₁ => ?_
  have hs₀ := s_eq_signed h₀
  have hs₁ := s_eq_signed h₁
  simp only [compares, List.mem_cons, Prod.mk.injEq, List.not_mem_nil, or_false] at h
  rcases h with ⟨rfl, rfl⟩ | ⟨rfl, rfl⟩ | ⟨rfl, rfl⟩ | ⟨rfl, rfl⟩ | ⟨rfl, rfl⟩ | ⟨rfl, rfl⟩ |
    ⟨rfl, rfl⟩ | ⟨rfl, rfl⟩ | ⟨rfl, rfl⟩ | ⟨rfl, rfl⟩ <;>
    simp only [Eval.compute, Outcome.result, hs₀, hs₁, Option.getD_some]

theorem exact_binaries {ty : Ty} (hty : ty.bits ≠ 0) {op : Opcode} {p : Operands → UInt64}
    (h : (op, p) ∈ binaries) : Exact ⟨op, ty, ty, some ty, [0, 1], fun o => .bits (p o)⟩ := by
  refine exact_of_compute hty hty fun o h₀ h₁ => ?_
  have hs₀ := s_eq_signed h₀
  have hs₁ := s_eq_signed h₁
  simp only [binaries, List.mem_cons, Prod.mk.injEq, List.not_mem_nil, or_false] at h
  rcases h with ⟨rfl, rfl⟩ | ⟨rfl, rfl⟩ | ⟨rfl, rfl⟩ | ⟨rfl, rfl⟩ | ⟨rfl, rfl⟩ | ⟨rfl, rfl⟩ |
    ⟨rfl, rfl⟩ <;>
    simp only [Eval.compute, Outcome.result, hs₀, hs₁, Option.getD_some]

theorem exact_shifts {ty : Ty} (hty : ty.bits ≠ 0) {op : Opcode} {p : Operands → UInt64}
    (h : (op, p) ∈ shifts) : Exact ⟨op, ty, ty, some .i32, [0, 1], fun o => .bits (p o)⟩ := by
  refine exact_of_compute hty (show Ty.i32.bits ≠ 0 by decide) fun o h₀ h₁ => ?_
  have hs₀ := s_eq_signed h₀
  simp only [shifts, List.mem_cons, Prod.mk.injEq, List.not_mem_nil, or_false] at h
  rcases h with ⟨rfl, rfl⟩ | ⟨rfl, rfl⟩ | ⟨rfl, rfl⟩ <;>
    simp only [Eval.compute, Outcome.result, hs₀]

/-- The two forms of rules: one picks an arm of a choice between scalars, the others compute an
integer from operands that are all constant. -/
inductive Form (rule : Rule) : Prop
  | choice (hop : rule.op = .select) (hty : rule.arg1 = some rule.result)
      (hscalar : rule.result.isInt || rule.result.isFloat) (hneeds : rule.needs = [0])
      (happly : ∀ o, rule.apply o = .operand (if o.u 0 ≠ 0 then 1 else 2))
  | integer (hop : rule.op ≠ .select) (hint : rule.result.isInt = true) (hneeds : 0 ∈ rule.needs)
      (hneeds' : rule.arg1.isSome = true → 1 ∈ rule.needs)
      (happly : ∀ o, ∃ b, rule.apply o = .bits b)

theorem isInt_of_mem {ty : Ty} (h : ty ∈ Ty.ints) : ty.isInt = true := by
  simp only [Ty.ints, List.mem_cons, List.not_mem_nil, or_false] at h
  rcases h with rfl | rfl | rfl | rfl <;> rfl

theorem scalar_of_mem {ty : Ty} (h : ty ∈ Ty.ints ++ Ty.floats) : ty.isInt || ty.isFloat := by
  simp only [Ty.ints, Ty.floats, List.mem_append, List.mem_cons, List.not_mem_nil, or_false] at h
  rcases h with (rfl | rfl | rfl | rfl) | rfl | rfl <;> rfl

theorem bits_of_mem {ty : Ty} (h : ty ∈ Ty.ints) : ty.bits ≠ 0 :=
  Ty.bits_ne_zero (scalar_of_mem (List.mem_append_left _ h))

theorem rules_form (h : rule ∈ rules) : Exact rule ∧ Form rule := by
  rcases List.mem_append.mp h with h | h
  · simp only [selects, List.mem_flatMap, List.mem_map] at h
    obtain ⟨cond, hcond, ty, hty, rfl⟩ := h
    have hscalar := scalar_of_mem hty
    refine ⟨exact_of_compute (bits_of_mem hcond) (Ty.bits_ne_zero hscalar) fun o _ _ => ?_,
      .choice rfl rfl hscalar rfl fun _ => rfl⟩
    simp only [Eval.compute]
    split <;> rfl
  · obtain ⟨ty, hty, h⟩ := List.mem_flatMap.mp h
    have hint := isInt_of_mem hty
    have hbits := bits_of_mem hty
    simp only [integerRules, List.mem_append, List.mem_map, Prod.exists, List.mem_singleton] at h
    rcases h with ((⟨op, p, hp, rfl⟩ | ⟨op, p, hp, rfl⟩) | ⟨op, p, hp, rfl⟩) | rfl
    · refine ⟨exact_compares hbits hp, .integer ?_ rfl (by simp) (by simp) fun _ => ⟨_, rfl⟩⟩
      rintro rfl
      simp [compares] at hp
    · refine ⟨exact_binaries hbits hp, .integer ?_ hint (by simp) (by simp) fun _ => ⟨_, rfl⟩⟩
      rintro rfl
      simp [binaries] at hp
    · refine ⟨exact_shifts hbits hp, .integer ?_ hint (by simp) (by simp) fun _ => ⟨_, rfl⟩⟩
      rintro rfl
      simp [shifts] at hp
    · exact ⟨exact_of_compute hbits (show Ty.i64.bits ≠ 0 by decide) fun o _ _ => rfl,
        .integer (by simp) hint (by simp) (by simp) fun _ => ⟨_, rfl⟩⟩

/-! ### Operands -/

theorem lookup_spec {op : Opcode} {result arg0 arg1 : Option Ty}
    (h : lookup? op result arg0 arg1 = some rule) : rule ∈ rules ∧ rule.op = op ∧
      some rule.result = result ∧ some rule.arg0 = arg0 ∧ rule.arg1 = arg1 := by
  have hmatch := List.find?_some h
  simp only [Rule.matchesTypes, Bool.and_eq_true, beq_iff_eq] at hmatch
  exact ⟨List.mem_of_find?_eq_some h, hmatch.1.1.1, hmatch.1.1.2, hmatch.1.2, hmatch.2⟩

variable {f f' : Fragment} {ρ : ValueId → ValueId} {gone done : List InstrId} {i : InstrId}
  {s : Cells}

theorem types_operands (ins : Instr) (n : Slot) :
    (operands f ins).types.get n = (ins.arg n).map f.ty := Vector.get_ofFn _ _

/-- A position that is constant or empty has the bits that the rule sees. -/
theorem u_operands (ins : Instr) (n : Slot)
    (h : (constantArg? f ins n).isSome = true ∨ ins.arg n = none) :
    (operands f ins).u n = argBits f cells s ins n := by
  have hu : (operands f ins).u n = (constantArg? f ins n).getD 0 := Vector.get_ofFn _ _
  rw [hu, argBits]
  unfold constantArg? at h ⊢
  cases hv : ins.arg n with
  | none => rfl
  | some v =>
    simp only [hv, Option.bind_some, Option.isSome_map, reduceCtorEq, or_false] at h ⊢
    unfold Value.constant? at h ⊢
    unfold bits
    cases horigin : (f.value v).origin with
    | constant c => simp
    | result j =>
      rw [horigin] at h
      cases h

/-! ### What is put for a result -/

theorem apply_third {op : Opcode} (h : op ≠ .select) (ty aty bty : Ty) (a b c c' : UInt64) :
    Eval.apply op ty aty bty a b c = Eval.apply op ty aty bty a b c' := by
  unfold Eval.apply
  cases op <;> first | rfl | exact absurd rfl h

theorem ty_rule (h : Rewrites f f' ρ gone) (hf : WellFormed f) (hi : i ∈ f.allInstrs)
    {r : ValueId} (hr : (f.instr i).result = some r)
    (hrule : ruleFor? f' i = some rule) : rule.op = (f.instr i).op ∧ rule.result = f.ty r := by
  obtain ⟨-, hop, hres, -, -⟩ := lookup_spec hrule
  rw [h.result_eq i hi, hr, Option.map_some, Option.some.injEq] at hres
  exact ⟨hop.trans (h.op_eq i hi), hres.trans (h.ty_eq r (hf.result i hi r hr).1)⟩

theorem exact_rule (hrule : ruleFor? f' i = some rule) : rule ∈ rules ∧
    Eval.apply rule.op rule.result rule.arg0 (rule.arg1.getD .i64)
      ((operands f' (f'.instr i)).u 0) ((operands f' (f'.instr i)).u 1)
      ((operands f' (f'.instr i)).u 2) =
        .ok ((rule.apply (operands f' (f'.instr i))).result (operands f' (f'.instr i))) := by
  obtain ⟨hmem, -, -, h₀, h₁⟩ := lookup_spec hrule
  exact ⟨hmem, (rules_form hmem).1 _ (by rw [types_operands, h₀]) (by rw [types_operands, h₁])⟩

section
variable (h : Rewrites f f' ρ gone) (hf : WellFormed f) (ho : Ordered f) (ht : Typed f)
  (hi : i ∈ f.allInstrs) (hg : i ∉ gone)
include h hf ho hi hg

/-- What a rule sees of an instruction is what the instruction is run on. -/
theorem seen_eq {code : List InstrId} {blocks : List BlockId} {s s' : Cells} {n : Slot}
    (ha : Agrees f f' ρ ⟨i :: code, blocks⟩ s s')
    (hc : (constantArg? f' (f'.instr i) n).isSome = true ∨ (f'.instr i).arg n = none) :
    argBits f cells s (f.instr i) n = (operands f' (f'.instr i)).u n := by
  rw [u_operands (s := s') (f'.instr i) n hc, h.argBits_eq hf ho hi hg ha]

theorem argTy_rule (hrule : ruleFor? f' i = some rule) : argTy f (f.instr i) 0 = rule.arg0 ∧
    argTy f (f.instr i) 1 = rule.arg1.getD .i64 := by
  obtain ⟨-, -, -, h₀, h₁⟩ := lookup_spec hrule
  rw [← h.argTy_eq hf ho hi hg, ← h.argTy_eq hf ho hi hg, argTy, argTy, h₁]
  constructor
  · cases hv : (f'.instr i).arg 0 with
    | none =>
      rw [hv] at h₀
      cases h₀
    | some v =>
      rw [hv] at h₀
      exact (Option.some.inj h₀).symm
  · cases (f'.instr i).arg 1 <;> rfl

theorem integer_offers {r : ValueId} (hr : (f.instr i).result = some r) {b : UInt64}
    (hrule : ruleFor? f' i = some rule) (hop : rule.op ≠ .select) (hint : rule.result.isInt = true)
    (hneeds : (constantArg? f' (f'.instr i) 0).isSome = true)
    (hneeds' : rule.arg1.isSome = true → (constantArg? f' (f'.instr i) 1).isSome = true)
    (happly : rule.apply (operands f' (f'.instr i)) = .bits b) :
    ∃ f₁ w, f'.addScalar (f'.ty r) b = .ok (f₁, w) ∧ Offers f f' ρ gone i r f₁ w := by
  obtain ⟨hop', hty⟩ := ty_rule h hf hi hr hrule
  obtain ⟨hty₀, hty₁⟩ := argTy_rule h hf ho hi hg hrule
  obtain ⟨-, hexact⟩ := exact_rule hrule
  rw [happly] at hexact
  rw [hty] at hint
  obtain ⟨c, hc, hcty, hcbits⟩ := bits_ofBits hint b
  refine ⟨_, _, ?_, offers_constant h hf hi hr hcty hcbits ?_⟩
  · rw [Fragment.addScalar, h.ty_eq r (hf.result i hi r hr).1, hc]
  · intro σ g o code blocks s s' m _ ha
    have harg₁ : (constantArg? f' (f'.instr i) 1).isSome = true ∨ (f'.instr i).arg 1 = none := by
      cases hv : (f'.instr i).arg 1 with
      | none => exact .inr rfl
      | some v =>
        obtain ⟨-, -, -, -, h₁⟩ := lookup_spec hrule
        exact .inl (hneeds' (by rw [h₁, hv]; rfl))
    refine computes_of_apply hr ?_ rfl
    rw [hty₀, hty₁, seen_eq h hf ho hi hg ha (.inl hneeds), seen_eq h hf ho hi hg ha harg₁, ← hop',
      ← hty, apply_third hop]
    exact hexact

include ht

theorem choice_offers {r : ValueId} (hr : (f.instr i).result = some r) {n : Slot}
    (hrule : ruleFor? f' i = some rule) (hop : rule.op = .select)
    (hscalar : rule.result.isInt || rule.result.isFloat)
    (hneeds : (constantArg? f' (f'.instr i) 0).isSome = true)
    (hn : n = if (operands f' (f'.instr i)).u 0 ≠ 0 then 1 else 2) :
    ∃ w, (f'.instr i).arg n = some w ∧ Offers f f' ρ gone i r f' w := by
  obtain ⟨hop', hty⟩ := ty_rule h hf hi hr hrule
  rw [hop] at hop'
  have haccepted := ht.accepted i hi
  rw [← hop', hr] at haccepted
  simp only [accepts, Opcode.kind, Bool.and_eq_true, beq_iff_eq, Option.map_some] at haccepted
  obtain ⟨⟨⟨-, -⟩, h₂⟩, h₁⟩ := haccepted
  have harm : argTy? f i n = some (f.ty r) := by
    rw [hn]
    split
    · exact h₁.symm
    · exact h₂.trans h₁.symm
  obtain ⟨v, hv, hvty⟩ := Option.map_eq_some_iff.mp harm
  refine ⟨ρ v, by rw [h.arg_eq i hi hg, hv, Option.map_some], ?_⟩
  refine offers_arg h hf ho hi hr hv hvty (by rw [← hty]; exact hscalar) ?_
  intro σ g o code blocks s s' m hfits ha
  have hcond := seen_eq h hf ho hi hg ha (.inl hneeds)
  obtain ⟨hty₀, hty₁⟩ := argTy_rule h hf ho hi hg hrule
  obtain ⟨hbits, -⟩ := Eval.apply_eq_ok.mp (exact_rule hrule).2
  rw [← hty₀, ← hty₁] at hbits
  refine computes_of_apply hr (y := argBits f cells s (f.instr i) n) ?_ ?_
  · rw [← hop', hcond, hn, Eval.apply_eq hbits.1 hbits.2]
    simp only [Eval.compute]
    split <;> rfl
  · rw [argBits, hv, ← hvty]
    exact fit_bits hfits hf (hf.arg_lt i hi n v hv)

/-- A rule that applies offers a value for the result. -/
theorem replacement_offers : replacement? f' i = .ok none ∨ ∃ r f₁ w, (f.instr i).result = some r ∧
    replacement? f' i = .ok (some (f₁, w)) ∧ Offers f f' ρ gone i r f₁ w := by
  unfold replacement?
  dsimp only
  rw [h.result_eq i hi]
  cases hr : (f.instr i).result with
  | none => exact .inl rfl
  | some r =>
    cases hrule : ruleFor? f' i with
    | none => exact .inl rfl
    | some rule =>
      dsimp only
      split
      · next hall =>
        rw [List.all_eq_true] at hall
        obtain ⟨hmem, -⟩ := exact_rule hrule
        rcases (rules_form hmem).2 with ⟨hop, -, hscalar, hneeds, happly⟩ |
          ⟨hop, hint, hneeds, hneeds', happly⟩
        · rw [happly]
          obtain ⟨w, hw, hoffer⟩ := choice_offers h hf ho ht hi hg hr hrule hop hscalar
            (hall 0 (by rw [hneeds]; simp)) rfl
          exact .inr ⟨r, f', w, rfl, by simp only [hw, Option.map_some], hoffer⟩
        · obtain ⟨b, hb⟩ := happly (operands f' (f'.instr i))
          rw [hb]
          obtain ⟨f₁, w, hadd, hoffer⟩ := integer_offers h hf ho hi hg hr hrule hop hint
            (hall 0 hneeds) (fun h1 => hall 1 (hneeds' h1)) hb
          exact .inr ⟨r, f₁, w, rfl, by simp only [hadd]; rfl, hoffer⟩
      · exact .inl rfl

end

/-! ### The pass -/

theorem foldInstr_stage (hf : WellFormed f) (ho : Ordered f) (ht : Typed f) (done : List InstrId)
    (s : Fragment × Nat) (i : InstrId) (h : Stage f done s.1) (hi : i ∈ f.allInstrs)
    (hd : i ∉ done) : ∃ s', foldInstr s i = .ok s' ∧ Stage f (i :: done) s'.1 := by
  obtain ⟨ρ, gone, hrw, hJ, hfree⟩ := h
  have hg : i ∉ gone := hrw.not_gone_of fun v hv => hfree i hi v hv hd
  unfold foldInstr
  rcases replacement_offers hrw hf ho ht hi hg with hnone | ⟨r, f₁, w, hr, hsome, hoffer⟩
  · rw [hnone]
    exact ⟨s, rfl, Stage.mono ⟨ρ, gone, hrw, hJ, hfree⟩ (by simp)⟩
  · obtain ⟨f₂, hreplace, -, f₃, hremove, hstage⟩ :=
      Offers.place hf ho hi hr hrw hJ hfree hd hoffer
    refine ⟨(f₃, s.2 + 1), ?_, hstage⟩
    have hresult : f₁.resultOf i = .ok r :=
      by rw [Fragment.resultOf, hoffer.rewrites.result_eq i hi, hr]
    simp only [hsome, hresult, bind, Except.bind, if_neg hoffer.ne, hreplace, hremove]
    rfl

theorem foldBlock_stage (hf : WellFormed f) (ho : Ordered f) (ht : Typed f) {done : List InstrId}
    {s : Fragment × Nat} {b : BlockId} (h : Stage f done s.1) (hb : b ∈ f.order)
    (hd : ∀ i ∈ f.blockInstrs b, i ∉ done) :
    ∃ s', foldBlock s b = .ok s' ∧ Stage f (f.blockInstrs b ++ done) s'.1 := by
  have hstage := h
  obtain ⟨ρ, gone, hrw, -⟩ := h
  have hlist := hrw.blockInstrs_eq hb
  have hsub : s.1.blockInstrs b ⊆ f.blockInstrs b := by
    rw [hlist]
    exact List.filter_subset_self _
  have hnodup : (s.1.blockInstrs b).Nodup := by
    rw [hlist]
    exact (hf.chain b hb).nodup.filter _
  obtain ⟨s', hs', hstage'⟩ := Stage.foldlM (foldInstr_stage hf ho ht) (s.1.blockInstrs b)
    (fun i hi => WellFormed.mem_allInstrs hb (hsub hi)) hnodup hstage (fun i hi => hd i (hsub hi))
  exact ⟨s', hs', hstage'.mono fun i hi => by
    rcases List.mem_append.mp hi with hi | hi
    · exact List.mem_append_left _ (hsub hi)
    · exact List.mem_append_right _ hi⟩

/-- Constant propagation ends, with a justified rewriting. -/
theorem run_stage (hf : WellFormed f) (hu : f.UseLists) (ho : Ordered f) (ht : Typed f) :
    ∃ f' n done, run f = .ok (f', n) ∧ Stage f done f' := by
  have hblocks : ∀ (bs : List BlockId), bs ⊆ f.order → bs.Nodup → ∀ (done : List InstrId)
      (s : Fragment × Nat), Stage f done s.1 → (∀ b ∈ bs, ∀ i ∈ f.blockInstrs b, i ∉ done) →
        ∃ s' done', bs.foldlM foldBlock s = .ok s' ∧ Stage f done' s'.1 := by
    intro bs
    induction bs with
    | nil => exact fun _ _ done s h _ => ⟨s, done, rfl, h⟩
    | cons b bs ih =>
      intro hsub hnodup done s h hd
      rw [List.nodup_cons] at hnodup
      have hb : b ∈ f.order := hsub (by simp)
      obtain ⟨s₁, hs₁, h₁⟩ := foldBlock_stage hf ho ht h hb (hd b (by simp))
      obtain ⟨s', done', hs', h'⟩ := ih (fun a ha => hsub (List.mem_cons_of_mem _ ha)) hnodup.2 _ s₁
        h₁ (by
          intro a ha i hi hm
          rcases List.mem_append.mp hm with hm | hm
          · have hab := block_unique hf (hsub (List.mem_cons_of_mem _ ha)) hb hi hm
            exact hnodup.1 (hab ▸ ha)
          · exact hd a (List.mem_cons_of_mem _ ha) i hi hm)
      refine ⟨s', done', ?_, h'⟩
      rw [List.foldlM_cons, hs₁]
      exact hs'
  obtain ⟨s', done, hs', h'⟩ := hblocks f.order (List.Subset.refl _) hf.order_nodup [] (f, 0)
    (stage_start hf hu) (by simp)
  exact ⟨s'.1, s'.2, done, hs', h'⟩

end Recompiler.Pass.Fold
