import Recompiler.IR.Signature
import Recompiler.Interp.Exec
import Recompiler.Proofs.Bytes

/-!
Only the low half of the bits of a single-precision float matters. An operation whose operands have
types that it accepts gives results that agree on operands that agree, and does the same otherwise.
-/
namespace Recompiler.Interp

open IR

variable {σ : Type}

/-- Bits that stand for the same value of a type. -/
def Agree (ty : Ty) (a a' : UInt64) : Prop := a = a' ∨ ty = .f32 ∧ a.toUInt32 = a'.toUInt32

theorem Agree.refl (ty : Ty) (a : UInt64) : Agree ty a a := .inl rfl

theorem Agree.symm {ty : Ty} {a a' : UInt64} (h : Agree ty a a') : Agree ty a' a :=
  h.imp Eq.symm fun ⟨hty, h⟩ => ⟨hty, h.symm⟩

theorem Agree.trans {ty : Ty} {a a' a'' : UInt64} (h : Agree ty a a') (h' : Agree ty a' a'') :
    Agree ty a a'' := by
  rcases h with rfl | ⟨hty, h⟩
  · exact h'
  · rcases h' with rfl | ⟨_, h'⟩
    · exact .inr ⟨hty, h⟩
    · exact .inr ⟨hty, h.trans h'⟩

theorem Agree.eq {ty : Ty} {a a' : UInt64} (h : Agree ty a a') (hty : ty ≠ .f32) : a = a' := by
  rcases h with h | ⟨h, _⟩
  · exact h
  · exact absurd h hty

theorem Agree.low {a a' : UInt64} (h : Agree .f32 a a') : a.toUInt32 = a'.toUInt32 := by
  rcases h with rfl | ⟨_, h⟩
  · rfl
  · exact h

theorem Agree.fit {ty : Ty} {a a' : UInt64} (h : Agree ty a a') :
    Agree ty (fit ty a) (fit ty a') := by
  rcases h with rfl | ⟨rfl, h⟩
  · exact .inl rfl
  · exact .inr ⟨rfl, h⟩

/-- Results of an operation of type `ty` that stand for the same value, with the same memory. -/
inductive SameOutcome (ty : Ty) : Except Fault (Option UInt64 × Memory σ) →
    Except Fault (Option UInt64 × Memory σ) → Prop
  | error (e : Fault) : SameOutcome ty (.error e) (.error e)
  | none (m : Memory σ) : SameOutcome ty (.ok (none, m)) (.ok (none, m))
  | some {a a' : UInt64} (h : Agree ty a a') (m : Memory σ) :
      SameOutcome ty (.ok (some a, m)) (.ok (some a', m))

theorem SameOutcome.refl (ty : Ty) (r : Except Fault (Option UInt64 × Memory σ)) :
    SameOutcome ty r r := by
  match r with
  | .error e => exact .error e
  | .ok (.none, m) => exact .none m
  | .ok (.some a, m) => exact .some (.refl ty a) m

/-- The operand types of an instruction are accepted by its operation, and a choice from
single-precision floats is one. -/
structure WellTyped (f : Fragment) (ins : Instr) : Prop where
  accepts : ∀ n v, ins.arg n = some v →
    Signature.accepts ins.op [argTy f ins 0, argTy f ins 1, argTy f ins 2] n.val (f.ty v)
  result : ins.result.isSome → ins.op.hasResult
  select : ins.op = .select → argTy f ins 1 = .f32 → opTy f ins = .f32

theorem WellTyped.accepts_argTy {f : Fragment} {ins : Instr} (h : WellTyped f ins) {n : Slot}
    {ty : Ty} (hty : argTy f ins n = ty) (hne : ty ≠ .i64) :
    Signature.accepts ins.op [argTy f ins 0, argTy f ins 1, argTy f ins 2] n.val ty := by
  rw [argTy] at hty
  cases ha : ins.arg n with
  | none =>
    rw [ha] at hty
    exact absurd hty.symm hne
  | some v =>
    rw [ha] at hty
    rw [← hty]
    exact h.accepts n v ha

/-- The positions that accept a single-precision float. -/
def takesFloat : Opcode → Slot → Bool
  | .storeHost, n | .storeContext, n | .storeLocal, n => n == 1
  | .select, n => n != 0
  | .ftoi, n | .fext, n | .ftrunc, n => n == 0
  | op, n => op.kind == .floatUnary && n == 0 ||
    (op.kind == .floatBinary || op.kind == .floatCompare) && n != 2

theorem takesFloat_of_accepts {op : Opcode} {tys : List Ty} {n : Slot}
    (h₀ : tys[0]? = some .f32 → Signature.accepts op tys 0 .f32)
    (h : Signature.accepts op tys n.val .f32) : takesFloat op n := by
  match n with
  | 0 => cases op <;> first | rfl | cases h
  | 1 =>
    -- The second operand of an integer operation has the type of the first.
    cases op <;> first | rfl | cases h₀ (eq_of_beq (a := tys[0]?) h) | cases h
  | 2 => cases op <;> first | rfl | cases h

theorem WellTyped.takesFloat_of_f32 {f : Fragment} {ins : Instr} (h : WellTyped f ins) {n : Slot}
    (hty : argTy f ins n = .f32) : takesFloat ins.op n := by
  refine takesFloat_of_accepts (fun h₀ => ?_) (h.accepts_argTy hty (by decide))
  exact h.accepts_argTy (n := 0) (by simpa using h₀) (by decide)

/-- Operands that are not floats agree only if they are equal. -/
theorem WellTyped.exact {f : Fragment} {ins : Instr} (h : WellTyped f ins) {n : Slot}
    {x x' : UInt64} (hx : Agree (argTy f ins n) x x') (hn : takesFloat ins.op n = false) :
    x = x' := by
  refine hx.eq fun hty => ?_
  rw [h.takesFloat_of_f32 hty] at hn
  cases hn

theorem takesFloat_of_isBranch {op : Opcode} (h : op.isBranch) (n : Slot) :
    takesFloat op n = false := by
  cases op <;> first | rfl | cases h

theorem hasResult_of_isBranch {op : Opcode} (h : op.isBranch) : op.hasResult = false := by
  cases op <;> first | rfl | cases h

/-- A string is accepted only behind one. -/
theorem accepts_str {op : Opcode} {a b c : Ty} {n : Slot}
    (h : Signature.accepts op [a, b, c] n.val .str) : n = 1 ∧ a = .str ∨ n = 2 ∧ b = .str := by
  match n with
  | 0 => cases op <;> cases h
  | 1 => cases op <;> first | exact .inl ⟨rfl, Option.some.inj (eq_of_beq h)⟩ | cases h
  | 2 => cases op <;> first | exact .inr ⟨rfl, Option.some.inj (eq_of_beq h)⟩ | cases h

/-- No operand is a string. -/
theorem WellTyped.argTy_ne_str {f : Fragment} {ins : Instr} (h : WellTyped f ins) (n : Slot) :
    argTy f ins n ≠ .str := by
  have hbehind : ∀ {n : Slot}, argTy f ins n = .str →
      n = 1 ∧ argTy f ins 0 = .str ∨ n = 2 ∧ argTy f ins 1 = .str := fun hty =>
    accepts_str (h.accepts_argTy hty (by decide))
  have h₀ : argTy f ins 0 ≠ .str := fun hty => by
    rcases hbehind hty with ⟨e, -⟩ | ⟨e, -⟩ <;> cases e
  have h₁ : argTy f ins 1 ≠ .str := fun hty => by
    rcases hbehind hty with ⟨-, e⟩ | ⟨e, -⟩
    · exact h₀ e
    · cases e
  intro hty
  rcases hbehind hty with ⟨-, e⟩ | ⟨-, e⟩
  · exact h₀ e
  · exact h₁ e

theorem toUInt32_and_low (a : UInt64) : a &&& 0xffffffff = a.toUInt32.toUInt64 := by
  apply UInt64.toNat_inj.mp
  rw [UInt64.toNat_and, UInt32.toNat_toUInt64, UInt64.toNat_toUInt32]
  exact Nat.and_two_pow_sub_one_eq_mod a.toNat 32

theorem ofWord_low {a a' : UInt64} (h : a.toUInt32 = a'.toUInt32) :
    Bytes.ofWord 4 a = Bytes.ofWord 4 a' := by
  have hnat : a.toNat % 2 ^ 32 = a'.toNat % 2 ^ 32 := by
    rw [← UInt64.toNat_toUInt32, h, UInt64.toNat_toUInt32]
  exact Bytes.ofWord_congr hnat

theorem toFloat_low {a a' : UInt64} (h : a.toUInt32 = a'.toUInt32) :
    Eval.toFloat .f32 a = Eval.toFloat .f32 a' := by
  rw [Eval.toFloat, Eval.toFloat, h]

theorem Agree.toFloat_eq {ty : Ty} {a a' : UInt64} (h : Agree ty a a') :
    Eval.toFloat ty a = Eval.toFloat ty a' := by
  rcases h with rfl | ⟨rfl, h⟩
  · rfl
  · exact toFloat_low h

theorem Agree.recode_eq {ty : Ty} {a a' : UInt64} (h : Agree ty a a') (new : Ty) :
    Eval.recode new ty a = Eval.recode new ty a' := by
  rcases h with rfl | ⟨rfl, h⟩
  · rfl
  · rw [Eval.recode, Eval.recode, toFloat_low h]
    split
    · next e =>
      subst e
      rw [Eval.truncate, Eval.truncate, Ty.wordMask, toUInt32_and_low, toUInt32_and_low, h]
    · rfl

/-! ### Values in memory -/

theorem toNat_truncate {ty : Ty} (h : ty.isInt ∨ ty.isFloat) (x : UInt64) :
    (Eval.truncate ty x).toNat = x.toNat % 256 ^ ty.bytes := by
  have hx := x.toNat_lt
  cases ty <;> simp [Ty.isInt, Ty.isFloat] at h <;>
    simp only [Eval.truncate, Ty.wordMask, Ty.bytes, UInt64.toNat_and]
  · exact Nat.and_two_pow_sub_one_eq_mod x.toNat 8
  · exact Nat.and_two_pow_sub_one_eq_mod x.toNat 16
  · exact Nat.and_two_pow_sub_one_eq_mod x.toNat 32
  · exact Nat.and_two_pow_sub_one_eq_mod x.toNat 64
  · exact Nat.and_two_pow_sub_one_eq_mod x.toNat 32
  · exact Nat.and_two_pow_sub_one_eq_mod x.toNat 64

theorem bytes_of_scalar {ty : Ty} (h : ty.isInt ∨ ty.isFloat) : 0 < ty.bytes ∧ ty.bytes ≤ 8 := by
  cases ty <;> simp [Ty.isInt, Ty.isFloat] at h <;> simp [Ty.bytes]

/-- A value of a type agrees with its low bytes. -/
theorem Agree.truncate {ty : Ty} {x y : UInt64} (hty : ty.isInt ∨ ty.isFloat)
    (hfit : ty.isInt → Eval.truncate ty x = x) (h : Agree ty x y) :
    Agree ty x (Eval.truncate ty y) := by
  rcases h with rfl | ⟨rfl, h⟩
  · rcases hty with hint | hfloat
    · rw [hfit hint]
      exact .refl ty x
    · cases ty <;> simp [Ty.isFloat] at hfloat
      · refine .inr ⟨rfl, ?_⟩
        rw [Eval.truncate, Ty.wordMask, toUInt32_and_low, UInt32.toUInt32_toUInt64]
      · refine .inl (UInt64.toNat_inj.mp ?_)
        rw [toNat_truncate (.inr rfl)]
        exact (Nat.mod_eq_of_lt x.toNat_lt).symm
  · refine .inr ⟨rfl, ?_⟩
    rw [Eval.truncate, Ty.wordMask, toUInt32_and_low, UInt32.toUInt32_toUInt64, h]

/-- A value agrees with what is read where it was written. -/
theorem Agree.read_write {ty : Ty} {x y : UInt64} (hty : ty.isInt ∨ ty.isFloat)
    (hfit : ty.isInt → Eval.truncate ty x = x) (h : Agree ty x y) {a : Array UInt8} {offset : Nat}
    (ha : offset + ty.bytes ≤ a.size) :
    Agree ty x (Bytes.read (Bytes.write a offset ty.bytes y) offset ty.bytes) := by
  have hread : Bytes.read (Bytes.write a offset ty.bytes y) offset ty.bytes =
    Eval.truncate ty y := by
    apply UInt64.toNat_inj.mp
    rw [toNat_truncate hty, Bytes.toNat_read_write (bytes_of_scalar hty).2 ha]
  rw [hread]
  exact h.truncate hty hfit

theorem fit_eq {ty : Ty} {x : UInt64} (hfit : ty.isInt → Eval.truncate ty x = x) :
    fit ty x = x := by
  rw [fit]
  split
  · next h => exact hfit h
  · rfl

theorem truncate_fit {ty : Ty} (hty : ty.isInt) (x : UInt64) :
    Eval.truncate ty (fit ty x) = fit ty x := by
  rw [fit, if_pos hty, Eval.truncate, Eval.truncate, UInt64.and_assoc, UInt64.and_self]

/-- On operands that agree, an operation does the same and gives results that agree. -/
theorem WellTyped.perform_agree {f : Fragment} {ins : Instr} (h : WellTyped f ins) (g : Guest σ)
    (o : Offsets) {a a' b b' c c' : UInt64} (ha : Agree (argTy f ins 0) a a')
    (hb : Agree (argTy f ins 1) b b') (hc : Agree (argTy f ins 2) c c') (m : Memory σ) :
    SameOutcome (opTy f ins)
      (perform g o ins.op (opTy f ins) (argTy f ins 0) (argTy f ins 1) a b c m)
      (perform g o ins.op (opTy f ins) (argTy f ins 0) (argTy f ins 1) a' b' c' m) := by
  have hstore : ins.op.hasResult = false → opTy f ins = argTy f ins 1 := by
    intro hr
    rw [opTy]
    cases hres : ins.result with
    | none => rfl
    | some v =>
      rw [h.result (by simp [hres])] at hr
      cases hr
  have hselect : ins.op = .select → argTy f ins 1 = .f32 ∨ argTy f ins 2 = .f32 →
      opTy f ins = .f32 := by
    intro hop hty
    refine h.select hop (hty.elim id fun h₂ => ?_)
    have := h.accepts_argTy h₂ (by decide)
    rw [hop] at this
    exact Option.some.inj (eq_of_beq (a := some (argTy f ins 1)) this)
  have hea := h.exact ha
  have heb := h.exact hb
  have hec := h.exact hc
  generalize argTy f ins 0 = aty, argTy f ins 1 = bty, argTy f ins 2 = cty, opTy f ins = ty at *
  generalize ins.op = op at *
  cases op
  case storeHost =>
    obtain rfl := hstore rfl
    rw [hea rfl]
    rcases hb with rfl | ⟨rfl, hb⟩
    · exact .refl _ _
    · have : b &&& 0xffffffff = b' &&& 0xffffffff := by
        rw [toUInt32_and_low, toUInt32_and_low, hb]
      simp only [perform, Ty.bytes, Width.ofBytes, Width.mask, this]
      exact .none _
  case storeContext =>
    obtain rfl := hstore rfl
    rw [hea rfl]
    rcases hb with rfl | ⟨rfl, hb⟩
    · exact .refl _ _
    · have hset : ∀ ctx : Context, ∀ offset, ctx.set offset .w32 b = ctx.set offset .w32 b' := by
        intro ctx offset
        simp only [Context.set, Width.bytes, Bytes.write, ofWord_low hb]
      change SameOutcome .f32 (.ok (none, _)) (.ok (none, _))
      rw [hset]
      exact .none _
  case storeLocal =>
    obtain rfl := hstore rfl
    rw [hea rfl]
    rcases hb with rfl | ⟨rfl, hb⟩
    · exact .refl _ _
    · simp only [perform, Memory.writeLocal, Ty.bytes, Bytes.write, ofWord_low hb]
      exact .refl _ _
  case select =>
    rw [hea rfl]
    have hb' : Agree ty b b' := hb.imp id (.imp_left fun e => hselect rfl (.inl e))
    have hc' : Agree ty c c' := hc.imp id (.imp_left fun e => hselect rfl (.inr e))
    by_cases hbits : aty.bits = 0 ∨ bty.bits = 0
    · simp only [perform, Eval.apply_noBits hbits]
      exact .refl _ _
    obtain ⟨hbits₀, hbits₁⟩ := not_or.mp hbits
    simp only [perform, Eval.apply_eq hbits₀ hbits₁]
    refine .some ?_ m
    by_cases hcond : a' ≠ 0
    · rw [if_pos hcond, if_pos hcond]
      exact hb'
    · rw [if_neg hcond, if_neg hcond]
      exact hc'
  all_goals first
    | (rw [hea rfl, heb rfl, hec rfl]
       exact .refl _ _)
    | (simp only [perform, Eval.apply, Eval.compute, ha.toFloat_eq, hb.toFloat_eq, ha.recode_eq]
       exact .refl _ _)

/-- Only accesses to the local area depend on it or change it. -/
theorem perform_withLocals (g : Guest σ) (o : Offsets) {op : Opcode} (hload : op ≠ .loadLocal)
    (hstore : op ≠ .storeLocal) (ty aty bty : Ty) (a b c : UInt64) (m : Memory σ)
    (locals : Array UInt8) :
    perform g o op ty aty bty a b c { m with locals } =
      (perform g o op ty aty bty a b c m).map fun r => (r.1, { r.2 with locals }) := by
  obtain ⟨r, hr⟩ : ∃ r, Eval.apply op ty aty bty a b c = r := ⟨_, rfl⟩
  cases op
  case loadLocal => exact absurd rfl hload
  case storeLocal => exact absurd rfl hstore
  case fallback =>
    simp only [perform]
    cases g.fallback a b.toUInt32 c.toUInt32 m.world <;> rfl
  case loadContext =>
    simp only [perform]
    cases contextWidth ty <;> rfl
  case storeContext =>
    simp only [perform]
    cases contextWidth ty <;> rfl
  all_goals first
    | rfl
    | (simp only [perform, hr]
       cases r <;> rfl)

/-- An operation that has a result gives one. -/
theorem perform_isSome (g : Guest σ) (o : Offsets) {op : Opcode} (hop : op.hasResult)
    (ty aty bty : Ty) (a b c : UInt64) (m : Memory σ) {m' : Memory σ} {bits : Option UInt64}
    (h : perform g o op ty aty bty a b c m = .ok (bits, m')) : bits.isSome := by
  cases op
  case loadContext =>
    simp only [perform, bind, Except.bind] at h
    split at h
    · cases h
    · cases h
      rfl
  case loadLocal =>
    simp only [perform, bind, Except.bind] at h
    split at h
    · cases h
    · cases h
      rfl
  all_goals first
    | (cases h; rfl)
    | (simp only [perform, bind, Except.bind] at h
       split at h
       · cases h
       · cases h
         rfl)
    | cases hop

end Recompiler.Interp
