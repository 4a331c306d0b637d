import Recompiler.Proofs.IR.Operations
import Recompiler.Proofs.Sh4.State

/-!
What the code of a lifted instruction does. Guest memory is accessed through the routines of the
guest or through a mapping; apart from that, the code does what the interpreter does.
-/
namespace Recompiler.Sh4

open IR Meaning State
open Interp (fit)

/-! ### Accesses -/

/-- The host address of an access through a mapping. -/
def hostPlace (map : FastMem) (w : Width) (addr : UInt32) : UInt64 :=
  map.base + (addr &&& (map.mask &&& ~~~(UInt32.ofNat w.bytes - 1))).toUInt64

/-- What code reads, through a mapping if it has one. -/
def readVia (mem : Option FastMem) (w : Width) (addr : UInt32) (s : State) : UInt64 :=
  match mem with
  | none => s.read w addr
  | some map => s.rest.ram.readHost (hostPlace map w addr) w

/-- The state after a write of code, through a mapping if it has one. -/
def writeVia (mem : Option FastMem) (w : Width) (addr : UInt32) (v : UInt64) (s : State) : State :=
  match mem with
  | none => s.write w addr v
  | some map =>
    { s with rest := { s.rest with ram := s.rest.ram.writeHost (hostPlace map w addr) w v } }

/-- What the code of an instruction does. -/
def performVia (mem : Option FastMem) (op : Op) (addr raw : UInt32) (s : State) : State :=
  let n := Field.r (rn raw)
  let load (w : Width) (extend : UInt32 → UInt32) : State :=
    s.set n (extend (readVia mem w (s.get (.r (rm raw))) s).toUInt32)
  let store (w : Width) : State :=
    writeVia mem w (s.get n) ((s.get (.r (rm raw))).toUInt64 &&& w.mask) s
  match op with
  | .loadByte => load .w8 signByte
  | .loadWord => load .w16 signWord
  | .loadLong => load .w32 id
  | .storeByte => store .w8
  | .storeWord => store .w16
  | .storeLong => store .w32
  | .loadPcRel => s.set n (readVia mem .w32 (pcRelative addr (imm8 raw)) s).toUInt32
  | op => perform op addr raw s

/-- Without a mapping the code does what the interpreter does. -/
theorem performVia_none (op : Op) (addr raw : UInt32) (s : State) :
    performVia none op addr raw s = perform op addr raw s := by
  cases op <;> rfl

variable {f : Fragment} {cells : Cells} {m : Interp.Memory Board} {v : ValueId} {x y : UInt32}

/-! ### Registers -/

theorem emits_load (r : Field) : Emits guest offsets (Lift.load r) f cells m fun v f' s' m' =>
    m' = m ∧ Holds32 f' s' v (State.get m.world r) := by
  have hlt : r.index < 74 := r.index_lt
  exact emits_loadContext (n := r.index) (by omega)

theorem emits_store (r : Field) (hv : Holds32 f cells v x) :
    Emits guest offsets (Lift.store r v) f cells m fun _ _ _ m' =>
      m' = withWorld m (State.set m.world r x) := by
  have hlt : r.index < 74 := r.index_lt
  exact emits_storeContext (n := r.index) (by omega) hv

theorem emits_storeConst (r : Field) (x : UInt32) :
    Emits guest offsets (Lift.storeConst r x) f cells m fun _ _ _ m' =>
      m' = withWorld m (State.set m.world r x) := by
  refine (emits_i32 x).bind ?_
  rintro v f₁ s₁ m₁ - ⟨rfl, hv⟩
  exact emits_store r hv

theorem emits_move (dst src : Field) :
    Emits guest offsets (Lift.move dst src) f cells m fun _ _ _ m' =>
      m' = withWorld m (State.move m.world dst src) := by
  refine (emits_load src).bind ?_
  rintro v f₁ s₁ m₁ - ⟨rfl, hv⟩
  exact emits_store dst hv

theorem emits_loadT : Emits guest offsets Lift.loadT f cells m fun v f' s' m' =>
    m' = m ∧ Holds32 f' s' v (State.get m.world .sr &&& srT) := by
  refine (emits_load .sr).bind ?_
  rintro v f₁ s₁ m₁ - ⟨rfl, hv⟩
  refine (emits_i32 srT).bind ?_
  rintro c f₂ s₂ m₂ hkeep ⟨rfl, hc⟩
  exact emits_and (hkeep hv) hc

/-- The word with another T. -/
theorem emits_withT {p : Bool} (hv : Holds32 f cells v p.toUInt32) :
    Emits guest offsets (do
      let sr ← Lift.load .sr
      let cleared ← Build.and sr (← Build.i32 (~~~srT))
      Lift.store .sr (← Build.or cleared v)) f cells m fun _ _ _ m' =>
      m' = withWorld m (State.modify m.world fun c => Context.setT c p) := by
  refine (emits_load .sr).bind ?_
  rintro sr f₁ s₁ m₁ hkeep₁ ⟨rfl, hsr⟩
  refine (emits_i32 (~~~srT)).bind ?_
  rintro c f₂ s₂ m₂ hkeep₂ ⟨rfl, hc⟩
  refine (emits_and (hkeep₂ hsr) hc).bind ?_
  rintro d f₃ s₃ m₃ hkeep₃ ⟨rfl, hd⟩
  refine (emits_or hd (hkeep₃ (hkeep₂ (hkeep₁ hv)))).bind ?_
  rintro e f₄ s₄ m₄ - ⟨rfl, he⟩
  exact emits_store .sr he

theorem emits_storeT_word {p : Bool} (hv : Holds32 f cells v p.toUInt32) :
    Emits guest offsets (Lift.storeT v) f cells m fun _ _ _ m' =>
      m' = withWorld m (State.modify m.world fun c => Context.setT c p) := by
  refine .typed hv ?_
  dsimp only
  rw [if_pos (by decide), pure_bind]
  exact emits_withT hv

theorem emits_storeT {p : Bool} (hv : HoldsTruth f cells v p) :
    Emits guest offsets (Lift.storeT v) f cells m fun _ _ _ m' =>
      m' = withWorld m (State.modify m.world fun c => Context.setT c p) := by
  refine .typed hv ?_
  dsimp only
  rw [if_neg (by decide)]
  have hword : fit .i32 p.toUInt64 = p.toUInt32.toUInt64 := by cases p <;> rfl
  refine (emits_convert hv rfl rfl hword).bind ?_
  rintro t f₁ s₁ m₁ - ⟨rfl, ht⟩
  exact emits_withT ht

theorem emits_notify (r : Recompiler.Lift.Routine) {w : State} (hv : Holds32 f cells v x)
    (hw : guest.call r.address x.toUInt64 0 m.world = w) :
    Emits guest offsets (Lift.notify r v) f cells m fun _ _ _ m' => m' = withWorld m w := by
  refine (emits_convert (u := x.toUInt64) hv rfl rfl ?_).bind ?_
  · exact toUInt64_and_all _
  rintro t f₁ s₁ m₁ - ⟨rfl, ht⟩
  rw [← hw]
  exact emits_call _ ht

theorem guest_call (routine old b : UInt64) (s : State) : guest.call routine old b s =
    if routine = Recompiler.Lift.Routine.statusChanged.address then
      s.modify fun c => Context.srUpdated c old.toUInt32
    else s.modify fun c => Context.fpscrUpdated c old.toUInt32 := rfl

/-- What is done to a register, and then to the context, is done to the context at once. -/
theorem modify_set (s : State) (r : Field) (x : UInt32) (k : Context → Context) :
    (s.set r x).modify k = s.modify fun c => k (Context.set c r x) := by
  rw [State.set, State.modify, State.modify]

theorem emits_storeSr (hv : Holds32 f cells v x) :
    Emits guest offsets (Lift.storeSr v) f cells m fun _ _ _ m' =>
      m' = withWorld m (State.modify m.world fun c => Context.setSr c x) := by
  refine (emits_load .sr).bind ?_
  rintro old f₁ s₁ m₁ hkeep₁ ⟨rfl, hold⟩
  have hnotify : guest.call Recompiler.Lift.Routine.statusChanged.address
      (State.get m₁.world .sr).toUInt64 0 (State.set m₁.world .sr x) =
        State.modify m₁.world fun c => Context.setSr c x := by
    rw [guest_call, if_pos rfl, UInt32.toUInt32_toUInt64, modify_set]
    rfl
  refine (emits_store .sr (hkeep₁ hv)).bind ?_
  rintro _ f₂ s₂ m₂ hkeep₂ hm₂
  have hworld : m₂.world = State.set m₁.world .sr x := by rw [hm₂, world_withWorld]
  rw [← hworld] at hnotify
  refine (emits_notify _ (hkeep₂ hold) hnotify).mono ?_
  rintro _ f₃ s₃ m₃ - hm₃
  rw [hm₃, hm₂, withWorld, withWorld, withWorld]

theorem emits_storeFpscr (hv : Holds32 f cells v x) :
    Emits guest offsets (Lift.storeFpscr v) f cells m fun _ _ _ m' =>
      m' = withWorld m (State.modify m.world fun c => Context.setFpscr c (x &&& fpscrMask)) := by
  refine (emits_load .fpscr).bind ?_
  rintro old f₁ s₁ m₁ hkeep₁ ⟨rfl, hold⟩
  have hnotify : guest.call Recompiler.Lift.Routine.floatStatusChanged.address
      (State.get m₁.world .fpscr).toUInt64 0 (State.set m₁.world .fpscr (x &&& fpscrMask)) =
        State.modify m₁.world fun c => Context.setFpscr c (x &&& fpscrMask) := by
    rw [guest_call, if_neg (by decide), UInt32.toUInt32_toUInt64, modify_set]
    rfl
  refine (emits_i32 fpscrMask).bind ?_
  rintro c f₂ s₂ m₂ hkeep₂ ⟨rfl, hc⟩
  refine (emits_and (hkeep₂ (hkeep₁ hv)) hc).bind ?_
  rintro d f₃ s₃ m₃ hkeep₃ ⟨rfl, hd⟩
  refine (emits_store .fpscr hd).bind ?_
  rintro _ f₄ s₄ m₄ hkeep₄ hm₄
  have hworld : m₄.world = State.set m₃.world .fpscr (x &&& fpscrMask) := by
    rw [hm₄, world_withWorld]
  rw [← hworld] at hnotify
  refine (emits_notify _ (hkeep₄ (hkeep₃ (hkeep₂ hold))) hnotify).mono ?_
  rintro _ f₅ s₅ m₅ - hm₅
  rw [hm₅, hm₄, withWorld, withWorld, withWorld]

/-! ### Memory -/

theorem emits_hostAddress (map : FastMem) (ty : Ty) (ha : Holds32 f cells v x) :
    Emits guest offsets (Recompiler.Lift.hostAddress map v ty) f cells m fun a f' s' m' =>
      m' = m ∧ Holds f' s' a .i64
        (map.base + (x &&& (map.mask &&& ~~~(UInt32.ofNat ty.bytes - 1))).toUInt64) := by
  refine (emits_i32 _).bind ?_
  rintro c f₁ s₁ m₁ hkeep ⟨rfl, hc⟩
  refine (emits_and (hkeep ha) hc).bind ?_
  rintro d f₂ s₂ m₂ - ⟨rfl, hd⟩
  refine (emits_convert hd rfl rfl (toUInt64_and_all _)).bind ?_
  rintro e f₃ s₃ m₃ - ⟨rfl, he⟩
  refine (emits_i64 map.base).bind ?_
  rintro b f₄ s₄ m₄ hkeep' ⟨rfl, hb⟩
  have he := hkeep' he
  refine .typed hb (.passed rfl (.typed he (.passed rfl ?_)))
  exact emits_apply [(.i64, map.base), (.i64, _)] (by simp) (.cons hb (.cons he .nil)) rfl
    (toUInt64_and_all _)

theorem ofBytes_bytes {ty : Ty} (hty : ty.isInt = true) :
    Width.ofBytes ty.bytes = Width.ofTy ty := by
  cases ty <;> first | rfl | cases hty

theorem bytes_ofTy {ty : Ty} (hty : ty.isInt = true) : (Width.ofTy ty).bytes = ty.bytes := by
  cases ty <;> first | rfl | cases hty

theorem emits_loadMem (mem : Option FastMem) {ty : Ty} (hty : ty.isInt = true)
    (ha : Holds32 f cells v x) :
    Emits guest offsets (Recompiler.Lift.loadMem mem v ty) f cells m fun a f' s' m' =>
      m' = m ∧ Holds f' s' a ty (fit ty (readVia mem (.ofTy ty) x m.world)) := by
  cases mem with
  | none => exact emits_loadGuest ha hty
  | some map =>
    refine (emits_hostAddress map ty ha).bind ?_
    rintro a f₁ s₁ m₁ - ⟨rfl, ha⟩
    have hload : Emits guest offsets (Build.loadHost a ty) f₁ s₁ m₁ _ := emits_loadHost ha
    rw [ofBytes_bytes hty] at hload
    unfold readVia hostPlace
    rw [bytes_ofTy hty]
    exact hload

theorem emits_storeMem (mem : Option FastMem) {ty : Ty} {b : ValueId} {u : UInt64}
    (hty : ty.isInt = true) (ha : Holds32 f cells v x) (hb : Holds f cells b ty u) :
    Emits guest offsets (Recompiler.Lift.storeMem mem v b) f cells m fun _ _ _ m' =>
      m' = withWorld m (writeVia mem (.ofTy ty) x (u &&& (Width.ofTy ty).mask) m.world) := by
  cases mem with
  | none => exact emits_storeGuest ha hb hty
  | some map =>
    refine .typed hb ?_
    refine (emits_hostAddress map ty ha).bind ?_
    rintro a f₁ s₁ m₁ hkeep ⟨rfl, ha⟩
    have hstore : Emits guest offsets (Build.storeHost a b) f₁ s₁ m₁ _ :=
      emits_storeHost ha (hkeep hb)
    rw [ofBytes_bytes hty] at hstore
    unfold writeVia hostPlace
    rw [bytes_ofTy hty]
    exact hstore

/-! ### Groups of instructions -/

/-- The action computes `F` of two words. -/
def Computes32 (fn : ValueId → ValueId → Build ValueId) (F : UInt32 → UInt32 → UInt32) : Prop :=
  ∀ {f : Fragment} {cells : Cells} {m : Interp.Memory Board} {a b : ValueId} {x y : UInt32},
    Holds32 f cells a x → Holds32 f cells b y →
      Emits guest offsets (fn a b) f cells m fun v f' s' m' => m' = m ∧ Holds32 f' s' v (F x y)

theorem emits_arith (raw : UInt32) {fn : ValueId → ValueId → Build ValueId}
    {F : UInt32 → UInt32 → UInt32} (h : Computes32 fn F) :
    Emits guest offsets (Lift.arith raw fn) f cells m fun _ _ _ m' =>
      m' = withWorld m (State.alu m.world raw F) := by
  refine (emits_load (.r (rn raw))).bind ?_
  rintro a f₁ s₁ m₁ - ⟨rfl, ha⟩
  refine (emits_load (.r (rm raw))).bind ?_
  rintro b f₂ s₂ m₂ hkeep ⟨rfl, hb⟩
  refine (h (hkeep ha) hb).bind ?_
  rintro c f₃ s₃ m₃ - ⟨rfl, hc⟩
  exact emits_store _ hc

theorem emits_test (raw : UInt32) {op : Opcode} {P : UInt32 → UInt32 → Bool}
    (h : ∀ x y : UInt32,
      Eval.apply op .i8 .i32 .i32 x.toUInt64 y.toUInt64 0 = .ok (P x y).toUInt64) :
    Emits guest offsets (Lift.test raw op) f cells m fun _ _ _ m' =>
      m' = withWorld m (State.test m.world raw P) := by
  refine (emits_load (.r (rn raw))).bind ?_
  rintro a f₁ s₁ m₁ - ⟨rfl, ha⟩
  refine (emits_load (.r (rm raw))).bind ?_
  rintro b f₂ s₂ m₂ hkeep ⟨rfl, hb⟩
  refine (emits_compare (hkeep ha) hb (h _ _)).bind ?_
  rintro c f₃ s₃ m₃ - ⟨rfl, hc⟩
  exact emits_storeT hc

theorem emits_extend (raw : UInt32) {ty : Ty} {op : Opcode} {E : UInt32 → UInt32}
    (hty : ty.isInt = true) (hconv : Build.converts op ty .i32 = true)
    (h : ∀ x : UInt32, ∃ w, Eval.apply op .i32 ty .i64 (fit ty x.toUInt64) 0 0 = .ok w ∧
      w.toUInt32 = E x) :
    Emits guest offsets (Lift.extend raw ty op) f cells m fun _ _ _ m' =>
      m' = withWorld m (State.alu m.world raw fun _ y => E y) := by
  refine (emits_load (.r (rm raw))).bind ?_
  rintro a f₁ s₁ m₁ - ⟨rfl, ha⟩
  refine (emits_convert ha (show Build.converts .trunc .i32 ty = true from hty) rfl rfl).bind ?_
  rintro b f₂ s₂ m₂ - ⟨rfl, hb⟩
  obtain ⟨w, happly, hw⟩ := h (State.get m₂.world (.r (rm raw)))
  refine (emits_convert hb hconv happly (fit_word hw)).bind ?_
  rintro c f₃ s₃ m₃ - ⟨rfl, hc⟩
  exact emits_store _ hc

end Recompiler.Sh4
