import Recompiler.Proofs.Context

/-!
The counters of a context: what is counted down between two worlds, and how much can be counted
before a counter leaves the signed 32-bit numbers.
-/
namespace Recompiler

/-- The bytes of a field and those of the word at `c` are different ones. -/
def Clear (d : Int) (n : Nat) (c : Int) : Prop := d + n ≤ c ∨ c + 4 ≤ d

instance (d : Int) (n : Nat) (c : Int) : Decidable (Clear d n c) := by
  unfold Clear
  infer_instance

theorem Context.get_set32_of_clear {ctx : Context} {d c : Int} {w : Width} (v : UInt32)
    (h : Clear d w.bytes c) : (ctx.set32 c v).get d w = ctx.get d w :=
  get_set_of_disjoint _ h

variable {σ : Type} {o : Offsets} {w w' w'' : World σ} {c c' n n' : UInt32} {size : Nat}

/-! ### Counters -/

theorem Context.get32_set32_self {ctx : Context} {d : Int} (hd : 0 ≤ d) (h : d + 4 ≤ ctx.size)
    (v : UInt32) : (ctx.set32 d v).get32 d = v := by
  have hlt : v.toUInt64.toNat < 256 ^ Width.w32.bytes := v.toNat_lt
  have hle : d + Width.w32.bytes ≤ ctx.size := h
  unfold set32 get32
  rw [get_set_same hd hle hlt, UInt32.toUInt32_toUInt64]

/-- From one world to the other `c` cycles are counted down and `n` instructions are counted, and
the size of the context stays. -/
structure Spends (o : Offsets) (w : World σ) (c n : UInt32) (w' : World σ) : Prop where
  size_eq : w'.ctx.size = w.ctx.size
  cycles_eq : w'.get32 o.cycles = w.get32 o.cycles - c
  instrs_eq : w'.get32 o.instrs = w.get32 o.instrs + n

theorem Spends.refl (o : Offsets) (w : World σ) : Spends o w 0 0 w where
  size_eq := rfl
  cycles_eq := (UInt32.sub_zero _).symm
  instrs_eq := (UInt32.add_zero _).symm

theorem Spends.trans (h : Spends o w c n w') (h' : Spends o w' c' n' w'') :
    Spends o w (c + c') (n + n') w'' where
  size_eq := h'.size_eq.trans h.size_eq
  cycles_eq := by
    rw [h'.cycles_eq, h.cycles_eq, UInt32.sub_eq_add_neg, UInt32.sub_eq_add_neg,
      UInt32.sub_eq_add_neg,
      UInt32.neg_add, UInt32.add_assoc, UInt32.sub_eq_add_neg]
  instrs_eq := by
    rw [h'.instrs_eq, h.instrs_eq, UInt32.add_assoc]

theorem Spends.congr (h : Spends o w c n w') (hctx : w''.ctx = w'.ctx) : Spends o w c n w'' where
  size_eq := (congrArg Array.size hctx).trans h.size_eq
  cycles_eq := (congrArg (Context.get32 · o.cycles) hctx).trans h.cycles_eq
  instrs_eq := (congrArg (Context.get32 · o.instrs) hctx).trans h.instrs_eq

theorem spends_of_ctx (h : w'.ctx = w.ctx) : Spends o w 0 0 w' := (Spends.refl o w).congr h

/-- The counters are different words of a context of `size` bytes, and neither of them is the pc. -/
structure Offsets.Placed (o : Offsets) (size : Nat) : Prop where
  cycles_nonneg : 0 ≤ o.cycles
  cycles_le : o.cycles + 4 ≤ size
  instrs_nonneg : 0 ≤ o.instrs
  instrs_le : o.instrs + 4 ≤ size
  apart : Clear o.cycles 4 o.instrs
  pc_cycles : Clear o.pc 4 o.cycles
  pc_instrs : Clear o.pc 4 o.instrs

/-- No routine of the guest changes the counters. -/
structure Guest.Unmetered (g : Guest σ) (o : Offsets) (size : Nat) : Prop where
  read : ∀ w a s, s.ctx.size = size → Spends o s 0 0 (g.read w a s).2
  write : ∀ w a v s, s.ctx.size = size → Spends o s 0 0 (g.write w a v s)
  fallback : ∀ r a raw s s', s.ctx.size = size → g.fallback r a raw s = .ok s' → Spends o s 0 0 s'
  call : ∀ r a b s, s.ctx.size = size → Spends o s 0 0 (g.call r a b s)
  writeHost : ∀ a w v s, s.ctx.size = size → Spends o s 0 0 (g.writeHost a w v s)

/-- A field apart from the counters can be written. -/
theorem spends_set {d : Int} {width : Width} (h : Clear d width.bytes o.cycles)
    (h' : Clear d width.bytes o.instrs) (w : World σ) (v : UInt64) :
    Spends o w 0 0 ⟨w.ctx.set d width v, w.rest⟩ where
  size_eq := w.ctx.size_set d width v
  cycles_eq := by
    rw [UInt32.sub_zero]
    exact congrArg UInt64.toUInt32 (Context.get_set_of_disjoint v h.symm)
  instrs_eq := by
    rw [UInt32.add_zero]
    exact congrArg UInt64.toUInt32 (Context.get_set_of_disjoint v h'.symm)

theorem spends_set_pc (ho : o.Placed size) (w : World σ) (addr : UInt32) :
    Spends o w 0 0 (w.set32 o.pc addr) := by
  have hcycles : Clear o.pc Width.w32.bytes o.cycles := ho.pc_cycles
  have hinstrs : Clear o.pc Width.w32.bytes o.instrs := ho.pc_instrs
  exact spends_set hcycles hinstrs w addr.toUInt64

theorem spends_charge (ho : o.Placed size) (hw : w.ctx.size = size) (cycles : UInt32) :
    Spends o w cycles 1 (w.charge o cycles) := by
  have hle : o.cycles + 4 ≤ w.ctx.size := hw ▸ ho.cycles_le
  have hle' : o.instrs + 4 ≤ w.ctx.size := hw ▸ ho.instrs_le
  have hapart : Clear o.instrs Width.w32.bytes o.cycles := ho.apart.symm
  have hapart' : Clear o.cycles Width.w32.bytes o.instrs := ho.apart
  -- the cycles are counted down first, and neither write changes the other counter
  have hdown : (w.set32 o.cycles (w.get32 o.cycles - cycles)).get32 o.instrs = w.get32 o.instrs :=
    congrArg UInt64.toUInt32 (Context.get_set_of_disjoint _ hapart'.symm)
  constructor
  · simp [World.charge, World.set32]
  · have hkept : (w.charge o cycles).get32 o.cycles =
        (w.set32 o.cycles (w.get32 o.cycles - cycles)).get32 o.cycles :=
      congrArg UInt64.toUInt32 (Context.get_set_of_disjoint _ hapart.symm)
    rw [hkept]
    exact Context.get32_set32_self ho.cycles_nonneg hle _
  · rw [← hdown]
    apply Context.get32_set32_self ho.instrs_nonneg
    rw [World.set32, Context.size_set32]
    exact hle'

/-! ### Room -/

/-- The counters stay signed 32-bit numbers while so many cycles and instructions are counted. -/
def World.Lasts (w : World σ) (o : Offsets) (cycles instrs : Nat) : Prop :=
  -2 ^ 31 ≤ (w.get32 o.cycles).toInt32.toInt - cycles ∧
    (w.get32 o.instrs).toInt32.toInt + instrs < 2 ^ 31

instance (w : World σ) (o : Offsets) (cycles instrs : Nat) : Decidable (w.Lasts o cycles instrs) :=
  inferInstanceAs (Decidable (_ ∧ _))

theorem World.chargeChecked_eq (h : w.HasRoom o c) : w.chargeChecked o c = .ok (w.charge o c) :=
  if_pos h

theorem World.Lasts.hasRoom {a b : Nat} (h : w.Lasts o (c.toNat + a) (b + 1)) : w.HasRoom o c := by
  unfold Lasts at h
  unfold HasRoom
  omega

/-- A word as a number with sign. -/
theorem toInt_eq (x : UInt32) :
    x.toInt32.toInt = if 2 ^ 31 ≤ x.toNat then (x.toNat - 2 ^ 32 : Int) else x.toNat := by
  have h := BitVec.toInt_eq_msb_cond x.toBitVec
  rw [BitVec.msb_eq_decide] at h
  simp only [decide_eq_true_eq] at h
  exact h

theorem toInt_sub {x : UInt32} (h : -2 ^ 31 ≤ x.toInt32.toInt - c.toNat) :
    (x - c).toInt32.toInt = x.toInt32.toInt - c.toNat := by
  have hx := x.toNat_lt
  have hc := c.toNat_lt
  rw [toInt_eq] at h
  rw [toInt_eq, toInt_eq, UInt32.toNat_sub]
  omega

theorem toInt_add_one {x : UInt32} (h : x.toInt32.toInt + 1 < 2 ^ 31) :
    (x + 1).toInt32.toInt = x.toInt32.toInt + 1 := by
  have hx := x.toNat_lt
  have hsum : (x + 1).toNat = (x.toNat + 1) % 2 ^ 32 := UInt32.toNat_add x 1
  rw [toInt_eq] at h
  rw [toInt_eq, toInt_eq, hsum]
  omega

/-- An instruction takes its part. -/
theorem Spends.lasts {a b : Nat} (h : Spends o w c 1 w') (hw : w.Lasts o (c.toNat + a) (b + 1)) :
    w'.Lasts o a b := by
  unfold World.Lasts at hw ⊢
  rw [h.cycles_eq, h.instrs_eq, toInt_sub (by omega), toInt_add_one (by omega)]
  omega

theorem Spends.lasts_iff {a b : Nat} (h : Spends o w 0 0 w') : w'.Lasts o a b ↔ w.Lasts o a b := by
  unfold World.Lasts
  rw [h.cycles_eq, h.instrs_eq, UInt32.sub_zero, UInt32.add_zero]

theorem Spends.hasRoom_iff (h : Spends o w 0 0 w') : w'.HasRoom o c ↔ w.HasRoom o c := by
  unfold World.HasRoom
  rw [h.cycles_eq, h.instrs_eq, UInt32.sub_zero, UInt32.add_zero]

end Recompiler
