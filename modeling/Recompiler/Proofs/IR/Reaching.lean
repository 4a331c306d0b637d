import Recompiler.Proofs.Counters
import Recompiler.Proofs.IR.Typing
import Recompiler.Proofs.Interp.Lowering

/-!
The states that a fragment comes to, and what the guest and the accesses to the context have to be
like for the context to be a place where values can be kept.
-/
namespace Recompiler

/-- Host memory lies apart from the context, and a read of it gives no more bits than were asked
for. No routine changes the size of the context. -/
structure Guest.Apart {σ : Type} (g : Guest σ) : Prop where
  readHost_ctx : ∀ a w c c' r, g.readHost a w ⟨c', r⟩ = g.readHost a w ⟨c, r⟩
  readHost_lt : ∀ a w s, (g.readHost a w s).toNat < 256 ^ w.bytes
  writeHost_ctx : ∀ a w v s, (g.writeHost a w v s).ctx = s.ctx
  writeHost_rest : ∀ a w v c c' r, (g.writeHost a w v ⟨c', r⟩).rest =
    (g.writeHost a w v ⟨c, r⟩).rest
  read_size : ∀ w a s, (g.read w a s).2.ctx.size = s.ctx.size
  write_size : ∀ w a v s, (g.write w a v s).ctx.size = s.ctx.size
  fallback_size : ∀ a b c s s', g.fallback a b c s = .ok s' → s'.ctx.size = s.ctx.size
  call_size : ∀ a b c s, (g.call a b c s).ctx.size = s.ctx.size

/-- Whether an operation reads or writes the context at an offset. -/
def IR.Opcode.isAccess (op : IR.Opcode) : Bool := op = .loadContext || op = .storeContext

theorem isCall_of_isBranch {op : IR.Opcode} (h : op.isBranch = true) : op.isCall = false := by
  cases op <;> first | rfl | cases h

theorem isAccess_of_isBranch {op : IR.Opcode} (h : op.isBranch = true) : op.isAccess = false := by
  cases op <;> first | rfl | cases h

namespace Meaning

open IR Interp Machine Fragment

variable {σ : Type} {g : Guest σ} {o : Offsets} {n : Nat} {f : Fragment} {i j : InstrId}
  {b : BlockId} {code : List InstrId} {blocks : List BlockId} {s : Cells} {m : Memory σ}

/-- The states that a fragment comes to from a context of `n` bytes. -/
inductive Reached (g : Guest σ) (o : Offsets) (n : Nat) (f : Fragment) : Config Cells σ → Prop
  | start {w : World σ} (hw : w.ctx.size = n) : Reached g o n f (Meaning.start f (fun _ => 0) w)
  | next {c c' : Config Cells σ} (h : Reached g o n f c)
      (hstep : step f cells g o c = .go c') : Reached g o n f c'

theorem reached_preserved : Preserved g o f (Reached g o n f) := fun _ _ hc h => .next hc h

theorem Reached.holds {I : Config Cells σ → Prop} (hI : Invariant g o f I) {c : Config Cells σ}
    (h : Reached g o n f c) : I c := by
  induction h with
  | start hw => exact hI.start _
  | next _ hstep ih => exact hI.move _ _ ih (moves_of_step hstep)

theorem Reached.path {c : Config Cells σ} (h : Reached g o n f c) :
    ∃ seen, Path f seen c.point := by
  induction h with
  | start hw => exact ⟨[], .start⟩
  | next _ hstep ih =>
    obtain ⟨seen, hp⟩ := ih
    cases moves_of_step hstep with
    | enter => exact ⟨seen, hp.enter⟩
    | untaken hop hne => exact ⟨_, hp.pass hne⟩
    | jump hop htarget hv => exact ⟨_, hp.jump htarget hv⟩
    | @perform i code blocks s m m' x hop _ =>
      refine ⟨_, hp.pass fun e => ?_⟩
      rw [e] at hop
      cases hop

theorem Reached.goesIn {c c' : Config Cells σ} {k : Nat} (h : Reached g o n f c)
    (hgo : GoesIn (step f cells g o) k c c') : Reached g o n f c' := by
  induction hgo with
  | refl => exact h
  | step hstep _ ih => exact ih (h.next hstep)

theorem Reached.from_start {c : Config Cells σ} (h : Reached g o n f c) : ∃ (w : World σ) (k : Nat),
    w.ctx.size = n ∧ GoesIn (Meaning.step f cells g o) k (Meaning.start f (fun _ => 0) w) c := by
  induction h with
  | start hw => exact ⟨_, 0, hw, .refl _⟩
  | next _ hstep ih =>
    obtain ⟨w, k, hw, hgo⟩ := ih
    exact ⟨w, k + 1, hw, hgo.trans (.single hstep)⟩

theorem Reached.mem_allInstrs (hf : WellFormed f)
    (h : Reached g o n f ⟨⟨i :: code, blocks⟩, s, m⟩) :
    i ∈ f.allInstrs := by
  obtain ⟨seen, hp⟩ := h.path
  obtain ⟨b, hb, l₁, -, -, -, hcode, -⟩ := hp.located_cons hf
  exact WellFormed.mem_allInstrs hb (by simp [hcode])

/-- Control is at the start of a block, or it was in front of the instruction before. -/
theorem Reached.cases_before (hf : WellFormed f) {c : Config Cells σ} (h : Reached g o n f c) :
    c.point.code = [] ∨ (∃ b ∈ f.order, c.point.code = f.blockInstrs b) ∨
      ∃ i s₁ m₁, Reached g o n f ⟨⟨i :: c.point.code, c.point.blocks⟩, s₁, m₁⟩ ∧
        step f cells g o ⟨⟨i :: c.point.code, c.point.blocks⟩, s₁, m₁⟩ = .go c := by
  cases h with
  | start => exact .inl rfl
  | next h hstep =>
    cases moves_of_step hstep with
    | enter =>
      obtain ⟨seen, hp⟩ := h.path
      exact .inr (.inl ⟨_, hp.blocks_subset hf (by simp), rfl⟩)
    | untaken => exact .inr (.inr ⟨_, _, _, h, hstep⟩)
    | jump hop htarget hv => exact .inr (.inl ⟨_, hf.target _ _ hv, rfl⟩)
    | perform => exact .inr (.inr ⟨_, _, _, h, hstep⟩)

/-- Inside a block, control was in front of the instruction before. -/
theorem Reached.before (hf : WellFormed f) (hb : b ∈ f.order) {l₁ l₂ : List InstrId}
    (hl : f.blockInstrs b = l₁ ++ i :: j :: l₂)
    (h : Reached g o n f ⟨⟨j :: code, blocks⟩, s, m⟩) :
    ∃ s₁ m₁, Reached g o n f ⟨⟨i :: j :: code, blocks⟩, s₁, m₁⟩ ∧
      step f cells g o ⟨⟨i :: j :: code, blocks⟩, s₁, m₁⟩ = .go ⟨⟨j :: code, blocks⟩, s, m⟩ := by
  have hj : j ∈ f.blockInstrs b := by simp [hl]
  have hl' : f.blockInstrs b = (l₁ ++ [i]) ++ j :: l₂ := by simp [hl]
  rcases h.cases_before hf with hnil | ⟨a, ha, hcode⟩ | ⟨k, s₁, m₁, h₁, hstep⟩
  · cases hnil
  · obtain rfl : a = b := block_unique hf ha hb (by simp [← hcode]) hj
    have hcode' : f.blockInstrs a = [] ++ j :: code := hcode.symm
    obtain ⟨hsplit, -⟩ := split_unique (hf.chain a ha).nodup hcode' hl'
    simp at hsplit
  · obtain ⟨seen, hp⟩ := h₁.path
    obtain ⟨a, ha, l, -, -, -, hcode, -⟩ := hp.located_cons hf
    obtain rfl : a = b := block_unique hf ha hb (by simp [hcode]) hj
    have hcode' : f.blockInstrs a = (l ++ [k]) ++ j :: code := by
      rw [hcode, List.append_cons]
    obtain ⟨hsplit, -⟩ := split_unique (hf.chain a ha).nodup hcode' hl'
    obtain rfl : k = i := by simpa using (List.append_inj' hsplit rfl).2
    exact ⟨s₁, m₁, h₁, hstep⟩

/-! ### Bits of a float -/

/-- The 32-bit floats have no higher bits. -/
def Narrow (f : Fragment) (c : Config Cells σ) : Prop :=
  ∀ v, f.ty v = .f32 → (c.store v).toNat < 2 ^ 32

theorem toNat_word_lt (x : UInt32) : x.toUInt64.toNat < 2 ^ 32 := by
  rw [UInt32.toNat_toUInt64]
  exact x.toNat_lt

theorem ofFloat_lt (x : Float) : (Eval.ofFloat .f32 x).toNat < 2 ^ 32 := toNat_word_lt _

theorem truncate_lt (x : UInt64) : (Eval.truncate .f32 x).toNat < 2 ^ 32 := by
  change (x &&& 0xffffffff).toNat < 2 ^ 32
  rw [toUInt32_and_low]
  exact toNat_word_lt _

theorem recode_lt (source : Ty) (x : UInt64) : (Eval.recode .f32 source x).toNat < 2 ^ 32 := by
  unfold Eval.recode
  split
  · exact truncate_lt x
  · exact ofFloat_lt _

/-- The bits of an argument that is a 32-bit float. -/
theorem Narrow.bits_lt {c : Config Cells σ} (hc : Narrow f c) {v : ValueId} (hf : WellFormed f)
    (hv : v.index < f.values.size) (hty : f.ty v = .f32) :
    (bits f cells c.store v).toNat < 2 ^ 32 := by
  unfold bits
  split
  · next k hk =>
    have hk : k.ty = .f32 := (hf.constant_ty v hv k hk).symm.trans hty
    cases k with
    | f32 x => exact toNat_word_lt x
    | _ => cases hk
  · exact hc v hty

/-- The operations that yield a 32-bit float. -/
theorem accepts_float {op : Opcode} {a b c : Option Ty}
    (h : accepts op (some .f32) a b c = true) : op.kind = .loadHost ∨ op.kind = .loadContext ∨
      op.kind = .loadLocal ∨ op.kind = .select ∨ op.kind = .floatBinary ∨ op.kind = .floatUnary ∨
      op = .itof ∨ op = .fext ∨ op = .ftrunc := by
  have hint : ∀ t : Option Ty, t.any Ty.isInt = true → some Ty.f32 ≠ t := by
    rintro t ht rfl
    cases ht
  unfold accepts at h
  cases hk : op.kind <;>
    simp only [hk, Bool.and_eq_true, beq_iff_eq, Option.isNone_some, Bool.false_eq_true,
      false_and, Option.any_some, reduceCtorEq, or_true, true_or, false_or] at h ⊢
  case loadGuest => cases h.1.1.1
  case convert =>
    cases op <;> first
      | cases hk
        done
      | simp [Build.converts, Ty.isInt, Ty.isFloat] at h ⊢
  case compare | floatCompare => cases h.2
  case intBinary | intUnary | shift => exact absurd h.2 (hint a h.1.1.1)
  case shiftSigned => cases h.1.1.1.symm.trans h.2.symm

theorem narrow_performed (hf : WellFormed f) (ht : Typed f) (hg : g.Apart) (hi : i ∈ f.allInstrs)
    {v : ValueId} (hv : (f.instr i).result = some v) (hty : f.ty v = .f32) {p : Point}
    (hc : Narrow f (⟨p, s, m⟩ : Config Cells σ)) {x : UInt64} {m' : Memory σ}
    (h : performed g o f i s m = .ok (some x, m')) : x.toNat < 2 ^ 32 := by
  have hop : opTy f (f.instr i) = .f32 := by
    rw [opTy, hv]
    exact hty
  have haccepted := ht.accepted i hi
  rw [hv, Option.map_some, hty] at haccepted
  have harg : ∀ k, argTy? f i k = some .f32 →
      (argBits f cells s (f.instr i) k).toNat < 2 ^ 32 := by
    intro k hk
    obtain ⟨u, hu, huty⟩ := Option.map_eq_some_iff.mp hk
    rw [argBits, hu]
    exact hc.bits_lt hf (hf.arg_lt i hi k u hu) huty
  unfold performed at h
  rw [hop] at h
  cases hi : (f.instr i).op with
  | loadHost =>
    rw [hi] at h
    cases h
    exact hg.readHost_lt _ .w32 _
  | loadContext =>
    rw [hi] at h
    cases h
    exact Context.toNat_get_lt _ _ .w32
  | loadLocal =>
    rw [hi] at h
    unfold perform Memory.readLocal at h
    dsimp only at h
    split at h <;> cases h
    exact Bytes.toNat_read_lt (by decide)
  | select =>
    rw [hi] at h haccepted
    simp only [accepts, Opcode.kind, Bool.and_eq_true, beq_iff_eq] at haccepted
    obtain ⟨y, hy, e, -⟩ := compute_of_performed h
    cases e
    cases hy
    split
    · exact harg 1 haccepted.2.symm
    · exact harg 2 (haccepted.1.2.trans haccepted.2.symm)
  | itof | fext | ftrunc | fadd | fsub | fmul | fdiv | sqrt =>
    rw [hi] at h
    obtain ⟨y, hy, e, -⟩ := compute_of_performed h
    cases e
    cases hy
    exact ofFloat_lt _
  | fneg =>
    rw [hi] at h
    obtain ⟨y, hy, e, -⟩ := compute_of_performed h
    cases e
    cases hy
    rw [UInt64.toNat_xor]
    exact Nat.xor_lt_two_pow (recode_lt _ _) (by decide)
  | fabs =>
    rw [hi] at h
    obtain ⟨y, hy, e, -⟩ := compute_of_performed h
    cases e
    cases hy
    rw [UInt64.toNat_and]
    exact Nat.lt_of_le_of_lt Nat.and_le_left (recode_lt _ _)
  | _ =>
    rw [hi] at haccepted
    rcases accepts_float haccepted with hk | hk | hk | hk | hk | hk | hk | hk | hk <;> cases hk

/-- A field of the width of a type holds its bits. -/
theorem toNat_bits_lt {c : Config Cells σ} (hfits : Fits f c) (hnarrow : Narrow f c)
    (hf : WellFormed f) {v : ValueId} (hv : v.index < f.values.size) {w : Width}
    (hw : Context.width? (f.ty v).bytes = some w) :
    (bits f cells c.store v).toNat < 256 ^ w.bytes := by
  have hfit := fit_bits hfits hf hv
  cases hty : f.ty v with
  | i8 =>
    rw [hty] at hfit hw
    cases hw
    rw [← hfit]
    change (_ &&& 0xff : UInt64).toNat < _
    rw [toUInt8_and_low, UInt8.toNat_toUInt64]
    exact UInt8.toNat_lt _
  | i16 =>
    rw [hty] at hfit hw
    cases hw
    rw [← hfit]
    change (_ &&& 0xffff : UInt64).toNat < _
    rw [toUInt16_and_low, UInt16.toNat_toUInt64]
    exact UInt16.toNat_lt _
  | i32 =>
    rw [hty] at hfit hw
    cases hw
    rw [← hfit]
    change (_ &&& 0xffffffff : UInt64).toNat < _
    rw [toUInt32_and_low]
    exact toNat_word_lt _
  | f32 =>
    rw [hty] at hw
    cases hw
    exact hnarrow.bits_lt hf hv hty
  | i64 | f64 =>
    rw [hty] at hw
    cases hw
    exact UInt64.toNat_lt _
  | v128 | str | blk =>
    rw [hty] at hw
    cases hw

/-- What an operation reads that gets a field of the context fits its type. -/
theorem fit_get {ty : Ty} {w : Width} (hw : Context.width? ty.bytes = some w) (ctx : Context)
    (d : Int) : fit ty (ctx.get d w) = ctx.get d w := by
  have hlt := ctx.toNat_get_lt d w
  unfold fit Eval.truncate
  split
  · apply UInt64.toNat_inj.mp
    rw [UInt64.toNat_and]
    have hmask (k : Nat) (x : UInt64) (hx : x.toNat < 2 ^ k) : x.toNat &&& (2 ^ k - 1) = x.toNat :=
      (Nat.and_two_pow_sub_one_eq_mod _ _).trans (Nat.mod_eq_of_lt hx)
    cases ty <;> cases hw
    · exact hmask 8 _ hlt
    · exact hmask 16 _ hlt
    · exact hmask 32 _ hlt
    · exact hmask 64 _ hlt
    all_goals contradiction
  · rfl

/-! ### Operations apart from the context -/

/-- The memory with another context. -/
def withCtx (m : Memory σ) (ctx : Context) : Memory σ := { m with world := { m.world with ctx } }

/-- Operations that neither call a routine nor touch the context do not depend on it. -/
theorem perform_withCtx (hg : g.Apart) {op : Opcode} (hcall : op.isCall = false)
    (haccess : op.isAccess = false) (hinfo : op ≠ .sourceInfo) (ty aty bty : Ty) (a b c : UInt64)
    (m : Memory σ) (ctx : Context) : perform g o op ty aty bty a b c (withCtx m ctx) =
      (perform g o op ty aty bty a b c m).map fun r => (r.1, withCtx r.2 ctx) := by
  obtain ⟨r, hr⟩ : ∃ r, Eval.apply op ty aty bty a b c = r := ⟨_, rfl⟩
  cases op with
  | sourceInfo => exact absurd rfl hinfo
  | fallback | call | loadGuest | storeGuest => cases hcall
  | loadContext | storeContext => cases haccess
  | loadHost =>
    simp only [perform, withCtx, Except.map, hg.readHost_ctx a _ m.world.ctx ctx m.world.rest]
  | storeHost =>
    have hrest := hg.writeHost_rest a (.ofBytes ty.bytes) (b &&& (Width.ofBytes ty.bytes).mask)
      m.world.ctx ctx m.world.rest
    have hctx := hg.writeHost_ctx a (.ofBytes ty.bytes) (b &&& (Width.ofBytes ty.bytes).mask)
      ⟨ctx, m.world.rest⟩
    simp only [perform, withCtx, Except.map]
    rw [← hrest]
    generalize g.writeHost a (.ofBytes ty.bytes) (b &&& (Width.ofBytes ty.bytes).mask)
      ⟨ctx, m.world.rest⟩ = w at hctx
    cases w
    cases hctx
    rfl
  | loadLocal =>
    by_cases hle : a.toNat + ty.bytes ≤ m.locals.size <;>
    · simp only [perform, Memory.readLocal, withCtx, hle, if_true, if_false]
      rfl
  | storeLocal =>
    by_cases hle : a.toNat + ty.bytes ≤ m.locals.size <;>
    · simp only [perform, Memory.writeLocal, withCtx, hle, if_true, if_false]
      rfl
  | _ => first
    | rfl
    | (simp only [perform, hr]
       cases r <;> rfl)

/-- They leave the context as it is. -/
theorem perform_ctx (hg : g.Apart) {op : Opcode} (hcall : op.isCall = false)
    (haccess : op.isAccess = false) (hinfo : op ≠ .sourceInfo) {ty aty bty : Ty} {a b c : UInt64}
    {x : Option UInt64} {m' : Memory σ} (h : perform g o op ty aty bty a b c m = .ok (x, m')) :
    m'.world.ctx = m.world.ctx := by
  have hsame := perform_withCtx (o := o) hg hcall haccess hinfo ty aty bty a b c m m.world.ctx
  change perform g o op ty aty bty a b c m = _ at hsame
  rw [h] at hsame
  exact congrArg (·.2.world.ctx) (Except.ok.inj hsame)

/-! ### Contexts of one size -/

theorem performed_size (hg : g.Apart) {x : Option UInt64} {m' : Memory σ}
    (h : performed g o f i s m = .ok (x, m')) : m'.world.ctx.size = m.world.ctx.size := by
  unfold performed at h
  by_cases hother : (f.instr i).op.isCall = false ∧ (f.instr i).op.isAccess = false ∧
      (f.instr i).op ≠ .sourceInfo
  · rw [perform_ctx hg hother.1 hother.2.1 hother.2.2 h]
  · cases hop : (f.instr i).op with
    | sourceInfo =>
      rw [hop] at h
      cases h
      simp [World.charge, World.set32]
    | fallback =>
      rw [hop] at h
      simp only [perform] at h
      obtain ⟨w, hw, h⟩ := bind_eq_ok h
      cases h
      exact hg.fallback_size _ _ _ _ _ hw
    | call =>
      rw [hop] at h
      cases h
      exact hg.call_size _ _ _ _
    | loadGuest =>
      rw [hop] at h
      cases h
      exact hg.read_size _ _ _
    | storeGuest =>
      rw [hop] at h
      cases h
      exact hg.write_size _ _ _ _
    | storeContext =>
      rw [hop] at h
      simp only [perform] at h
      obtain ⟨w, hw, h⟩ := bind_eq_ok h
      cases h
      exact Context.size_set _ _ _ _
    | loadContext =>
      rw [hop] at h
      simp only [perform] at h
      obtain ⟨w, hw, h⟩ := bind_eq_ok h
      cases h
      rfl
    | _ =>
      rw [hop] at hother
      exact absurd ⟨rfl, rfl, by simp⟩ hother

section
variable (hf : WellFormed f) (ht : Typed f) (hg : g.Apart) {c : Config Cells σ}
include hg

theorem Reached.size (h : Reached g o n f c) : c.memory.world.ctx.size = n := by
  induction h with
  | start hw => exact hw
  | next _ hstep ih =>
    cases moves_of_step hstep with
    | enter | untaken | jump => exact ih
    | perform _ hperf => exact (performed_size hg hperf).trans ih

include hf ht

theorem Reached.narrow (h : Reached g o n f c) : Narrow f c := by
  induction h with
  | start hw => exact fun _ _ => Nat.two_pow_pos 32
  | next h hstep ih =>
    cases moves_of_step hstep with
    | enter | untaken | jump => exact ih
    | @perform i code blocks s m m' x _ hperf =>
      intro v hty
      by_cases hv : (f.instr i).result = some v
      · cases x with
        | none =>
          simp only [keep_none]
          exact ih v hty
        | some x =>
          have hfit : fit (f.ty v) x = x := by rw [hty]; rfl
          simp only [keep_eq hv, if_true, hfit]
          exact narrow_performed hf ht hg (h.mem_allInstrs hf) hv hty ih hperf
      · simp only [keep_of_ne hv]
        exact ih v hty

theorem Reached.toNat_bits_lt (h : Reached g o n f c) {v : ValueId} (hv : v.index < f.values.size)
    {w : Width} (hw : Context.width? (f.ty v).bytes = some w) :
    (bits f cells c.store v).toNat < 256 ^ w.bytes :=
  Meaning.toNat_bits_lt (h.holds fits_invariant) (h.narrow hf ht hg) hf hv hw

end

/-! ### Accesses to the context -/

/-- The offset that an access to the context goes to. -/
def accessAt (f : Fragment) (s : Cells) (i : InstrId) : Int :=
  (argBits f cells s (f.instr i) 0).toUInt32.toInt32.toInt

/-- Every access to a context of `n` bytes that is come to lies in it, and leaves the words alone in
which cycles and instructions are counted. -/
def Contained (g : Guest σ) (o : Offsets) (n : Nat) (f : Fragment) : Prop :=
  ∀ i code blocks s m, Reached g o n f ⟨⟨i :: code, blocks⟩, s, m⟩ →
    (f.instr i).op.isAccess = true → 0 ≤ accessAt f s i →
      accessAt f s i + (opTy f (f.instr i)).bytes ≤ n ∧
        Clear (accessAt f s i) (opTy f (f.instr i)).bytes o.cycles ∧
        Clear (accessAt f s i) (opTy f (f.instr i)).bytes o.instrs

end Meaning
end Recompiler
