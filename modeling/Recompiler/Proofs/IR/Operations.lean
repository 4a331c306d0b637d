import Recompiler.Proofs.IR.Methods
import Recompiler.Proofs.IR.Typing

/-! What the code of the building methods that compute does, on the integer types of a guest. -/
namespace Recompiler.Meaning

open IR Fragment Interp

variable {σ α : Type} {f : Fragment} {g : Guest σ} {o : Offsets} {s : Cells} {m : Memory σ}
  {a b v : ValueId} {x y z : UInt32} {ty : Ty}

/-! ### Checks -/

theorem Emits.typed {k : Ty → Build α} {Q : α → Fragment → Cells → Memory σ → Prop} {w : UInt64}
    (hv : Holds f s v ty w) (h : Emits g o (k ty) f s m Q) :
    Emits g o (Build.tyOf v >>= k) f s m Q := by
  refine (emits_tyOf v).bind ?_
  rintro _ f₁ s₁ m₁ - ⟨rfl, rfl, rfl, rfl⟩
  rwa [hv.ty_eq]

theorem Emits.passed {k : Unit → Build α} {Q : α → Fragment → Cells → Memory σ → Prop} {rule : Bool}
    {fault : Fault} (hrule : rule = true) (h : Emits g o (k ()) f s m Q) :
    Emits g o (Build.check rule fault >>= k) f s m Q := by
  refine (emits_check fault hrule).bind ?_
  rintro _ f₁ s₁ m₁ - ⟨rfl, rfl, rfl⟩
  exact h

/-! ### Computing -/

theorem emits_apply {op : Opcode} {args : List ValueId} {u w : UInt64} (ts : List (Ty × UInt64))
    (hlen : args.length ≤ 3) (hs : HoldAll f s args ts)
    (h : Eval.apply op ty (tyAt ts 0) (tyAt ts 1) (bitsAt ts 0) (bitsAt ts 1) (bitsAt ts 2) = .ok w)
    (hu : fit ty w = u) : Emits g o (Build.emitValue op ty args) f s m fun v f' s' m' =>
      m' = m ∧ Holds f' s' v ty u := by
  obtain ⟨hop, hdone⟩ := perform_of_apply (g := g) (o := o) (m := m) h
  rw [← hu]
  exact emits_value ts hop hlen hs hdone

theorem fit_word {w : UInt64} (h : w.toUInt32 = z) : fit .i32 w = z.toUInt64 := by
  rw [fit_i32, h]

theorem emits_intBinary {op : Opcode} {w : UInt64} (ha : Holds32 f s a x) (hb : Holds32 f s b y)
    (h : Eval.apply op .i32 .i32 .i32 x.toUInt64 y.toUInt64 0 = .ok w) (hz : w.toUInt32 = z) :
    Emits g o (Build.intBinary op a b) f s m fun v f' s' m' => m' = m ∧ Holds32 f' s' v z := by
  refine .typed ha (.passed rfl (.typed hb (.passed rfl ?_)))
  exact emits_apply [(.i32, x.toUInt64), (.i32, y.toUInt64)] (by simp) (.cons ha (.cons hb .nil)) h
    (fit_word hz)

theorem emits_add (ha : Holds32 f s a x) (hb : Holds32 f s b y) :
    Emits g o (Build.add a b) f s m fun v f' s' m' => m' = m ∧ Holds32 f' s' v (x + y) :=
  emits_intBinary ha hb rfl (by simp)

theorem emits_sub (ha : Holds32 f s a x) (hb : Holds32 f s b y) :
    Emits g o (Build.sub a b) f s m fun v f' s' m' => m' = m ∧ Holds32 f' s' v (x - y) :=
  emits_intBinary ha hb rfl (by simp)

theorem emits_and (ha : Holds32 f s a x) (hb : Holds32 f s b y) :
    Emits g o (Build.and a b) f s m fun v f' s' m' => m' = m ∧ Holds32 f' s' v (x &&& y) :=
  emits_intBinary ha hb rfl (by simp)

theorem emits_or (ha : Holds32 f s a x) (hb : Holds32 f s b y) :
    Emits g o (Build.or a b) f s m fun v f' s' m' => m' = m ∧ Holds32 f' s' v (x ||| y) :=
  emits_intBinary ha hb rfl (by simp)

theorem emits_xor (ha : Holds32 f s a x) (hb : Holds32 f s b y) :
    Emits g o (Build.xor a b) f s m fun v f' s' m' => m' = m ∧ Holds32 f' s' v (x ^^^ y) :=
  emits_intBinary ha hb rfl (by simp)

theorem emits_not (ha : Holds32 f s a x) :
    Emits g o (Build.not a) f s m fun v f' s' m' => m' = m ∧ Holds32 f' s' v (~~~x) := by
  refine .typed ha (.passed rfl ?_)
  exact emits_apply [(.i32, x.toUInt64)] (by simp) (.cons ha .nil) rfl (fit_word (by simp [bitsAt]))

theorem emits_shift {op : Opcode} {w : UInt64} (ha : Holds32 f s a x) (hb : Holds32 f s b y)
    (h : Eval.apply op .i32 .i32 .i32 x.toUInt64 y.toUInt64 0 = .ok w) (hz : w.toUInt32 = z) :
    Emits g o (Build.shift op a b) f s m fun v f' s' m' => m' = m ∧ Holds32 f' s' v z := by
  refine .typed ha (.passed rfl (.typed hb (.passed rfl ?_)))
  exact emits_apply [(.i32, x.toUInt64), (.i32, y.toUInt64)] (by simp) (.cons ha (.cons hb .nil)) h
    (fit_word hz)

theorem emits_shiftBy {op : Opcode} {w : UInt64} (ha : Holds32 f s a x)
    (h : Eval.apply op .i32 .i32 .i32 x.toUInt64 y.toUInt64 0 = .ok w) (hz : w.toUInt32 = z) :
    Emits g o (Build.shiftBy op a y) f s m fun v f' s' m' => m' = m ∧ Holds32 f' s' v z := by
  refine (emits_i32 y).bind ?_
  rintro b f₁ s₁ m₁ hkeep ⟨rfl, hb⟩
  exact emits_shift (hkeep ha) hb h hz

theorem emits_shiftSigned {op : Opcode} {w : UInt64} (ha : Holds32 f s a x) (hb : Holds32 f s b y)
    (h : Eval.apply op .i32 .i32 .i32 x.toUInt64 y.toUInt64 0 = .ok w) (hz : w.toUInt32 = z) :
    Emits g o (Build.shiftSigned op a b) f s m fun v f' s' m' => m' = m ∧ Holds32 f' s' v z :=
  .typed ha (.passed rfl (emits_shift ha hb h hz))

/-- The value holds a truth value. -/
abbrev HoldsTruth (f : Fragment) (s : Cells) (v : ValueId) (p : Bool) : Prop :=
  Holds f s v .i8 p.toUInt64

theorem emits_compare {op : Opcode} {p : Bool} (ha : Holds32 f s a x) (hb : Holds32 f s b y)
    (h : Eval.apply op .i8 .i32 .i32 x.toUInt64 y.toUInt64 0 = .ok p.toUInt64) :
    Emits g o (Build.compare op a b) f s m fun v f' s' m' => m' = m ∧ HoldsTruth f' s' v p := by
  refine .typed ha (.passed rfl (.typed ha (.typed hb (.passed rfl ?_))))
  exact emits_apply [(.i32, x.toUInt64), (.i32, y.toUInt64)] (by simp) (.cons ha (.cons hb .nil)) h
    (by cases p <;> rfl)

/-! ### Signs -/

theorem sshiftRight_shiftLeft {n : Nat} (hn : 0 < n) (h : n ≤ 64) (u : BitVec 64) :
    (u <<< (64 - n)).sshiftRight (64 - n) = (u.setWidth n).signExtend 64 := by
  apply BitVec.eq_of_getLsbD_eq
  intro i hi
  simp only [BitVec.getLsbD_sshiftRight, BitVec.getLsbD_shiftLeft, BitVec.getLsbD_signExtend,
    BitVec.getLsbD_setWidth, BitVec.msb_eq_getLsbD_last]
  by_cases hin : i < n
  · have hi' : 64 - n + i < 64 := by omega
    simp [hi, hi', hin]
  · have hi' : ¬64 - n + i < 64 := by omega
    have hlast : 64 - 1 - (64 - n) = n - 1 := by omega
    have hn' : ¬63 < 64 - n := by omega
    simp [hi, hi', hin, hlast, hn', hn]

theorem signed_i8 (u : UInt64) : Eval.signed .i8 u = u.toUInt8.toInt8.toInt64 := by
  apply Int64.toBitVec_inj.mp
  have h := sshiftRight_shiftLeft (n := 8) (by omega) (by omega) u.toBitVec
  simpa [Eval.signed, Ty.bits, Ty.bytes] using h

theorem signed_i16 (u : UInt64) : Eval.signed .i16 u = u.toUInt16.toInt16.toInt64 := by
  apply Int64.toBitVec_inj.mp
  have h := sshiftRight_shiftLeft (n := 16) (by omega) (by omega) u.toBitVec
  simpa [Eval.signed, Ty.bits, Ty.bytes] using h

theorem signed_i32 (u : UInt64) : Eval.signed .i32 u = u.toUInt32.toInt32.toInt64 := by
  apply Int64.toBitVec_inj.mp
  have h := sshiftRight_shiftLeft (n := 32) (by omega) (by omega) u.toBitVec
  simpa [Eval.signed, Ty.bits, Ty.bytes] using h

theorem setWidth_signExtend {n : Nat} (u : BitVec n) :
    (u.signExtend 64).setWidth 32 = u.signExtend 32 := by
  apply BitVec.eq_of_getLsbD_eq
  intro i hi
  have hi' : i < 64 := by omega
  simp only [BitVec.getLsbD_setWidth, BitVec.getLsbD_signExtend, hi, hi', decide_true,
    Bool.true_and]

/-- The low word of a byte that was extended with its sign. -/
theorem toUInt32_signed_i8 (u : UInt64) :
    (Eval.signed .i8 u).toUInt64.toUInt32 = u.toUInt8.toInt8.toInt32.toUInt32 := by
  rw [signed_i8]
  apply UInt32.toBitVec_inj.mp
  simpa using setWidth_signExtend u.toUInt8.toBitVec

theorem toUInt32_signed_i16 (u : UInt64) :
    (Eval.signed .i16 u).toUInt64.toUInt32 = u.toUInt16.toInt16.toInt32.toUInt32 := by
  rw [signed_i16]
  apply UInt32.toBitVec_inj.mp
  simpa using setWidth_signExtend u.toUInt16.toBitVec

/-! ### Shifts by a constant -/

theorem toUInt32_shiftRight {n : UInt32} (hn : n.toNat < 32) (x : UInt32) :
    (x.toUInt64 >>> (n.toUInt64 &&& 63)).toUInt32 = x >>> n := by
  apply UInt32.toNat_inj.mp
  have hand : n.toNat &&& 63 = n.toNat := by
    rw [Nat.and_two_pow_sub_one_eq_mod n.toNat 6]
    omega
  have hle : x.toNat >>> n.toNat ≤ x.toNat := Nat.shiftRight_le _ _
  have hlt := x.toNat_lt
  simp [hand, Nat.mod_eq_of_lt hn, Nat.mod_eq_of_lt (show n.toNat < 64 by omega)]
  omega

theorem toUInt32_shiftLeft {n : UInt32} (hn : n.toNat < 32) (x : UInt32) :
    (x.toUInt64 <<< (n.toUInt64 &&& 63)).toUInt32 = x <<< n := by
  apply UInt32.toNat_inj.mp
  have hand : n.toNat &&& 63 = n.toNat := by
    rw [Nat.and_two_pow_sub_one_eq_mod n.toNat 6]
    omega
  simp [hand, Nat.mod_eq_of_lt hn, Nat.mod_eq_of_lt (show n.toNat < 64 by omega)]

/-! ### Conversions -/

theorem emits_convert {op : Opcode} {src dst : Ty} {t u w : UInt64} (ha : Holds f s a src t)
    (hconv : Build.converts op src dst = true) (h : Eval.apply op dst src .i64 t 0 0 = .ok w)
    (hu : fit dst w = u) : Emits g o (Build.convert op a dst) f s m fun v f' s' m' =>
      m' = m ∧ Holds f' s' v dst u :=
  .typed ha (.passed hconv (emits_apply [(src, t)] (by simp) (.cons ha .nil) h hu))

/-! ### Memory and calls -/

theorem emits_loadGuest (ha : Holds32 f s a x) (hty : ty.isInt = true) :
    Emits g o (Build.loadGuest a ty) f s m fun v f' s' m' =>
      m' = withWorld m (g.read (.ofTy ty) x m.world).2 ∧
        Holds f' s' v ty (fit ty (g.read (.ofTy ty) x m.world).1) := by
  refine .typed ha (.passed rfl (.passed hty ?_))
  have hdone : perform g o .loadGuest ty .i32 .i64 x.toUInt64 0 0 m =
      .ok (some (g.read (.ofTy ty) x m.world).1, withWorld m (g.read (.ofTy ty) x m.world).2) := by
    unfold perform
    rw [UInt32.toUInt32_toUInt64]
    rfl
  exact emits_value [(.i32, x.toUInt64)] rfl (by simp) (.cons ha .nil) hdone

theorem emits_storeGuest {u : UInt64} (ha : Holds32 f s a x) (hv : Holds f s v ty u)
    (hty : ty.isInt = true) : Emits g o (Build.storeGuest a v) f s m fun _ _ _ m' =>
      m' = withWorld m (g.write (.ofTy ty) x (u &&& (Width.ofTy ty).mask) m.world) := by
  refine .typed ha (.passed rfl (.typed hv (.passed hty ?_)))
  have hdone : perform g o .storeGuest ty .i32 ty x.toUInt64 u 0 m =
      .ok (none, withWorld m (g.write (.ofTy ty) x (u &&& (Width.ofTy ty).mask) m.world)) := by
    unfold perform
    rw [UInt32.toUInt32_toUInt64]
    rfl
  refine (emits_effect [(.i32, x.toUInt64), (ty, u)] rfl (by simp) (.cons ha (.cons hv .nil))
    hdone).mono ?_
  rintro _ f₁ s₁ m₁ - ⟨-, hm⟩
  exact hm

theorem emits_loadHost {t : UInt64} (ha : Holds f s a .i64 t) :
    Emits g o (Build.loadHost a ty) f s m fun v f' s' m' =>
      m' = m ∧ Holds f' s' v ty (fit ty (g.readHost t (.ofBytes ty.bytes) m.world)) := by
  refine .typed ha (.passed rfl ?_)
  exact emits_value [(.i64, t)] rfl (by simp) (.cons ha .nil) rfl

theorem emits_storeHost {t u : UInt64} (ha : Holds f s a .i64 t) (hv : Holds f s v ty u) :
    Emits g o (Build.storeHost a v) f s m fun _ _ _ m' => m' = withWorld m
      (g.writeHost t (.ofBytes ty.bytes) (u &&& (Width.ofBytes ty.bytes).mask) m.world) := by
  refine .typed ha (.passed rfl ?_)
  refine (emits_effect [(.i64, t), (ty, u)] rfl (by simp) (.cons ha (.cons hv .nil)) rfl).mono ?_
  rintro _ f₁ s₁ m₁ - ⟨-, hm⟩
  exact hm

/-- A call with one argument is built in two steps, which come to the same. -/
theorem call_eq {l₁ l₂ : List InstrId} {blk : BlockId} {r : ValueId} (hopen : Open f blk l₁ l₂)
    (hv : v.index < f.values.size) (hty : f.ty v = .i64) :
    (do let i ← Build.emit .call none [r]
        Build.callArg i 1 (some v)
        Build.callArg i 2 none : Build Unit) f = Build.emitEffect .call [r, v] f := by
  obtain ⟨f₁, hemit, h⟩ := emit_spec hopen.chain hopen.point .call none [r] (by simp)
  have htyped : f₁.ty v = .i64 := (h.grows.ty_eq v hv).trans hty
  have hput : Build.callArg ⟨f.instrs.size⟩ 1 (some v) f₁ =
      .ok ((), f₁.setArg ⟨f.instrs.size⟩ 1 v) := by
    unfold Build.callArg
    dsimp only
    rw [bind_ok (show Build.tyOf v f₁ = .ok (f₁.ty v, f₁) from rfl), htyped]
    rfl
  have hboth : Build.emit .call none [r, v] f =
      .ok (⟨f.instrs.size⟩, f₁.setArg ⟨f.instrs.size⟩ 1 v) := by
    have hid : (f.appendInstr .call none).2 = ⟨f.instrs.size⟩ := by
      rw [appendInstr_eq .call none hopen.point]
    have hone : Build.emit .call none [r] f =
        .ok ((f.appendInstr .call none).2, (f.appendInstr .call none).1.setArgs
          (f.appendInstr .call none).2 [r]) := rfl
    have htwo : Build.emit .call none [r, v] f =
        .ok ((f.appendInstr .call none).2, ((f.appendInstr .call none).1.setArgs
          (f.appendInstr .call none).2 [r]).setArg (f.appendInstr .call none).2 1 v) := rfl
    rw [hid] at hone htwo
    cases hone.symm.trans hemit
    exact htwo
  unfold Build.emitEffect
  rw [bind_ok hemit, bind_ok hput, bind_ok hboth]
  rfl

theorem emits_call {u : UInt64} (routine : UInt64) (hv : Holds f s v .i64 u) :
    Emits g o (Build.call routine (some v) none) f s m fun _ _ _ m' =>
      m' = withWorld m (g.call routine u 0 m.world) := by
  unfold Build.call
  refine (emits_i64 routine).bind ?_
  rintro r f₁ s₁ m₁ hkeep ⟨rfl, hr⟩
  have hv := hkeep hv
  have hdone : perform g o .call .i64 .i64 .i64 routine u 0 m₁ =
      .ok (none, withWorld m₁ (g.call routine u 0 m₁.world)) := rfl
  have hcall : Emits g o (Build.emitEffect .call [r, v]) f₁ s₁ m₁ _ :=
    emits_effect [(.i64, routine), (.i64, u)] rfl (by simp) (.cons hr (.cons hv .nil)) hdone
  intro b l₁ l₂ hopen
  obtain ⟨_, f₂, l, s₂, m₂, hact, hext, hrun, hsame, -, hm⟩ := hcall b l₁ l₂ hopen
  exact ⟨(), f₂, l, s₂, m₂, (call_eq hopen hv.lt hv.ty_eq).trans hact, hext, hrun, hsame, hm⟩

end Recompiler.Meaning
