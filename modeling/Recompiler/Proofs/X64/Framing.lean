import Recompiler.Proofs.Allocation.Insertion
import Recompiler.Proofs.IR.Requests
import Recompiler.X64.Frame

/-!
Local slots and the frame around them. A new slot begins behind all slots there are, wherever those
were put, and the frame keeps its save area behind the last slot and the stack aligned.
-/
namespace Recompiler.IR.Fragment

open Pass.Allocation (slotOffset withSlot le_alignUp)

variable {f f' g g' : Fragment} {r : Request} {rs : List Request} {ty : Ty} {l : LocalId}
  {offset : Int}

/-! ### Slots -/

theorem dvd_alignUp (n align : Int) : align ∣ alignUp n align := Dvd.intro_left _ rfl

theorem allocLocal_eq_ok (h : g.allocLocal ty = .ok (g', l)) :
    0 < ty.bytes ∧ g' = withSlot g ty ∧ l = ⟨g.locals.size⟩ := by
  unfold allocLocal at h
  split at h
  · cases h
  dsimp only at h
  split at h
  · cases h
  next hbytes _ =>
    cases h
    exact ⟨Nat.pos_of_ne_zero hbytes, rfl, rfl⟩

theorem reserveLocal_eq_ok (h : g.reserveLocal ty offset = .ok (g', l)) :
    g' = g ∨ g' = { g with
      locals := g.locals.push { ty, offset }
      localsSize := max g.localsSize (offset + ty.bytes) } := by
  unfold reserveLocal at h
  split at h
  · cases h
    exact .inl rfl
  split at h
  · cases h
  · cases h
    exact .inr rfl

/-- Every slot lies in the local area. -/
structure Enclosed (f : Fragment) : Prop where
  size_nonneg : 0 ≤ f.localsSize
  slot_le : ∀ s ∈ f.locals, s.offset + s.ty.bytes ≤ f.localsSize

/-- The slots stay where they are, and the local area does not shrink. -/
structure Lengthens (f f' : Fragment) : Prop where
  size_le : f.localsSize ≤ f'.localsSize
  locals_le : f.locals.size ≤ f'.locals.size
  localSlot_eq : ∀ l : LocalId, l.index < f.locals.size → f'.localSlot l = f.localSlot l

theorem Lengthens.refl (f : Fragment) : Lengthens f f :=
  ⟨Int.le_refl _, Nat.le_refl _, fun _ _ => rfl⟩

theorem Lengthens.trans (h : Lengthens f f') (h' : Lengthens f' g) : Lengthens f g :=
  ⟨Int.le_trans h.size_le h'.size_le, Nat.le_trans h.locals_le h'.locals_le, fun l hl =>
    (h'.localSlot_eq l (Nat.lt_of_lt_of_le hl h.locals_le)).trans (h.localSlot_eq l hl)⟩

/-- A slot is added, and the local area reaches at least to its end. -/
theorem lengthens_push {s : Local} {size : Int} (hsize : f.localsSize ≤ size) :
    Lengthens f { f with locals := f.locals.push s, localsSize := size } :=
  ⟨hsize, by simp, fun _ hl => getD_push_lt _ _ _ hl⟩

theorem Enclosed.push (h : Enclosed f) {s : Local} {size : Int} (hsize : f.localsSize ≤ size)
    (hs : s.offset + s.ty.bytes ≤ size) :
    Enclosed { f with locals := f.locals.push s, localsSize := size } where
  size_nonneg := Int.le_trans h.size_nonneg hsize
  slot_le t ht := by
    obtain ht | rfl := Array.mem_push.mp ht
    · exact Int.le_trans (h.slot_le t ht) hsize
    · exact hs

theorem exists_of_map_eq_ok {α β : Type} {x : Except Fault α} {k : α → β} {y : β}
    (h : x.map k = .ok y) : ∃ a, x = .ok a ∧ k a = y := by
  cases x with
  | error e => cases h
  | ok a => exact ⟨a, rfl, Except.ok.inj h⟩

/-- The request adds a slot, at an offset that is not negative if it names one. -/
def Request.AddsSlot : Request → Prop
  | allocLocal _ => True
  | reserveLocal _ offset => 0 ≤ offset
  | _ => False

theorem Enclosed.serve (h : Enclosed f) (hr : r.AddsSlot) (hserve : r.serve f = .ok f') :
    Enclosed f' ∧ Lengthens f f' := by
  have happly := (Request.serve_eq_ok hserve).2
  cases r with
  | allocLocal ty =>
    obtain ⟨⟨_, l⟩, halloc, rfl⟩ := exists_of_map_eq_ok happly
    obtain ⟨hbytes, rfl, -⟩ := allocLocal_eq_ok halloc
    have hle : f.localsSize ≤ slotOffset f ty := le_alignUp _ _ (by omega)
    exact ⟨h.push (by omega) (Int.le_refl _), lengthens_push (by omega)⟩
  | reserveLocal ty offset =>
    obtain ⟨⟨g, l⟩, hreserve, rfl⟩ := exists_of_map_eq_ok happly
    obtain hsame | rfl := reserveLocal_eq_ok hreserve
    · rw [hsame]
      exact ⟨h, .refl f⟩
    · exact ⟨h.push (Int.le_max_left _ _) (Int.le_max_right _ _),
        lengthens_push (Int.le_max_left _ _)⟩
  | _ => cases hr

theorem Enclosed.serves (h : Enclosed f) (hrs : ∀ r ∈ rs, r.AddsSlot) (hserves : Serves f rs f') :
    Enclosed f' ∧ Lengthens f f' := by
  induction hserves with
  | nil => exact ⟨h, .refl _⟩
  | cons _ done _ ih =>
    obtain ⟨hr, hrs⟩ := List.forall_mem_cons.mp hrs
    obtain ⟨hone, hlong⟩ := h.serve hr done
    obtain ⟨hall, hlong'⟩ := ih hone hrs
    exact ⟨hall, hlong.trans hlong'⟩

theorem Serves.split {before after : List Request} (h : Serves f (before ++ r :: after) f') :
    ∃ g g', Serves f before g ∧ r.serve g = .ok g' ∧ Serves g' after f' := by
  induction before generalizing f with
  | nil =>
    cases h with
    | cons _ done rest => exact ⟨_, _, .nil f, done, rest⟩
  | cons q before ih =>
    cases h with
    | cons allowed done rest =>
      obtain ⟨g, g', hbefore, hr, hafter⟩ := ih rest
      exact ⟨g, g', .cons allowed done hbefore, hr, hafter⟩

/-! ### The frame -/

open X64 (Frame)

/-- The largest local area that a frame can be laid out for. -/
def maxLocals : Int := 2 ^ 31 - 128

theorem align_eq {n : Int} (hn : 0 ≤ n) (h : n + 16 < 2 ^ 31) :
    Frame.align n = .ok (alignUp n 16) := by
  have hchecked : checked32 (n + 16) = .ok (n + 16) := if_pos ⟨by omega, h⟩
  have hdone : Frame.align n = checked32 (n + 16) >>= fun n => .ok ((n - 1) / 16 * 16) := rfl
  rw [hdone, hchecked]
  rfl

theorem align_eq_error {n : Int} (h : 2 ^ 31 ≤ n + 16) : Frame.align n = .error .overflow := by
  have hchecked : checked32 (n + 16) = .error .overflow := if_neg (by omega)
  have hdone : Frame.align n = checked32 (n + 16) >>= fun n => .ok ((n - 1) / 16 * 16) := rfl
  rw [hdone, hchecked]
  rfl

/-- The sizes in the order in which they are computed. -/
theorem ofLocals_eq_do (size : Int) : Frame.ofLocals size = (do
    let xmmSave ← Frame.align (max size 0)
    let size ← Frame.align (← checked32 (xmmSave + 64))
    let whole ← checked32 (56 + size)
    if whole % 16 = 0 then return { xmmSave, size }
    else return { xmmSave, size := ← checked32 (size + 8) }) := rfl

/-- The frame of a local area up to the limit. Its save area begins at a multiple of sixteen, so
with the seven words that are pushed before it one more word is always needed. -/
theorem ofLocals_eq {size : Int} (h : size ≤ maxLocals) : Frame.ofLocals size =
    .ok { xmmSave := alignUp (max size 0) 16, size := alignUp (max size 0) 16 + 72 } := by
  have hmax : maxLocals = 2 ^ 31 - 128 := rfl
  have hsave : Frame.align (max size 0) = .ok (alignUp (max size 0) 16) :=
    align_eq (by omega) (by omega)
  have hle : max size 0 ≤ alignUp (max size 0) 16 := le_alignUp _ _ (by decide)
  have hend : alignUp (max size 0) 16 ≤ 2 ^ 31 - 128 := by
    unfold alignUp
    omega
  obtain ⟨k, hk⟩ : 16 ∣ alignUp (max size 0) 16 := dvd_alignUp _ _
  generalize alignUp (max size 0) 16 = save at hsave hle hend hk ⊢
  have hraw : alignUp (save + 64) 16 = save + 64 := by
    unfold alignUp
    omega
  have hroom : Frame.align (save + 64) = .ok (save + 64) :=
    (align_eq (by omega) (by omega)).trans (congrArg _ hraw)
  have hwords : checked32 (save + 64) = .ok (save + 64) := if_pos (by omega)
  have hwhole : checked32 (56 + (save + 64)) = .ok (56 + (save + 64)) := if_pos (by omega)
  have hone : checked32 (save + 64 + 8) = .ok (save + 64 + 8) := if_pos (by omega)
  have hodd : ¬ (56 + (save + 64)) % 16 = 0 := by omega
  simp only [ofLocals_eq_do, hsave, hwords, hroom, hwhole, hodd, hone, bind, Except.bind, if_false]
  rw [Int.add_assoc]
  rfl

/-- A larger local area has no frame: one of the sizes is too large. -/
theorem ofLocals_eq_error {size : Int} (h : maxLocals < size) :
    Frame.ofLocals size = .error .overflow := by
  have hmax : maxLocals = 2 ^ 31 - 128 := rfl
  rw [ofLocals_eq_do]
  by_cases hsize : 2 ^ 31 ≤ max size 0 + 16
  · rw [align_eq_error hsize]
    rfl
  have hsave : Frame.align (max size 0) = .ok (alignUp (max size 0) 16) :=
    align_eq (by omega) (by omega)
  have hle : max size 0 ≤ alignUp (max size 0) 16 := le_alignUp _ _ (by decide)
  obtain ⟨k, hk⟩ : 16 ∣ alignUp (max size 0) 16 := dvd_alignUp _ _
  generalize alignUp (max size 0) 16 = save at hsave hle hk
  by_cases hraw : 2 ^ 31 ≤ save + 64
  · have hwords : checked32 (save + 64) = .error .overflow := if_neg (by omega)
    simp only [hsave, hwords, bind, Except.bind]
  have hwords : checked32 (save + 64) = .ok (save + 64) := if_pos (by omega)
  by_cases hroom : 2 ^ 31 ≤ save + 64 + 16
  · simp only [hsave, hwords, align_eq_error hroom, bind, Except.bind]
  have hroom : Frame.align (save + 64) = .ok (alignUp (save + 64) 16) :=
    align_eq (by omega) (by omega)
  have hwhole : checked32 (56 + alignUp (save + 64) 16) = .error .overflow := by
    have hlow : save + 64 ≤ alignUp (save + 64) 16 := le_alignUp _ _ (by decide)
    exact if_neg (by omega)
  simp only [hsave, hwords, hroom, hwhole, bind, Except.bind]

/-- The frame has room for eight saved registers behind the local area, and with the seven words
that are pushed before it keeps the stack aligned. -/
theorem frame_spec {size : Int} (h : size ≤ maxLocals) : ∃ fr, Frame.ofLocals size = .ok fr ∧
    size ≤ fr.xmmSave ∧ fr.xmmSave + 64 ≤ fr.size ∧ (fr.size + Frame.pushed) % 16 = 0 := by
  have hpushed : Frame.pushed = 56 := rfl
  have hsave : max size 0 ≤ alignUp (max size 0) 16 := le_alignUp _ _ (by decide)
  obtain ⟨k, hk⟩ : 16 ∣ alignUp (max size 0) 16 := dvd_alignUp _ _
  refine ⟨_, ofLocals_eq h, ?_, ?_, ?_⟩
  · exact Int.le_trans (Int.le_max_left _ _) hsave
  · dsimp only
    omega
  · dsimp only
    omega

/-! ### Slots and the frame -/

/-- The slot `l`, which the type `ty` was given when the slots of `g` existed, is aligned, lies in
the local area of `f` and has no byte in common with a slot of `g`. -/
structure Allotted (g f : Fragment) (ty : Ty) (l : LocalId) : Prop where
  ty_eq : (f.localSlot l).ty = ty
  size_pos : 0 < ty.bytes
  aligned : (ty.bytes : Int) ∣ (f.localSlot l).offset
  offset_nonneg : 0 ≤ (f.localSlot l).offset
  end_le : (f.localSlot l).offset + ty.bytes ≤ f.localsSize
  apart : ∀ s ∈ g.locals, s.offset + s.ty.bytes ≤ (f.localSlot l).offset

theorem Enclosed.allotted (h : Enclosed g) (halloc : g.allocLocal ty = .ok (g', l))
    (hlong : Lengthens g' f) : Allotted g f ty l := by
  obtain ⟨hbytes, rfl, rfl⟩ := allocLocal_eq_ok halloc
  have hle : g.localsSize ≤ slotOffset g ty := le_alignUp _ _ (by omega)
  have hslot : f.localSlot ⟨g.locals.size⟩ = { ty, offset := slotOffset g ty } :=
    (hlong.localSlot_eq _ (by simp [withSlot])).trans (getD_push_self _ _ _)
  have hnonneg := h.size_nonneg
  constructor
  · rw [hslot]
  · exact hbytes
  · rw [hslot]
    exact dvd_alignUp _ _
  · rw [hslot]
    exact Int.le_trans hnonneg hle
  · rw [hslot]
    exact hlong.size_le
  · intro s hs
    rw [hslot]
    exact Int.le_trans (h.slot_le s hs) hle

theorem enclosed_empty : Enclosed empty := ⟨Int.le_refl _, fun s hs => by simp [empty] at hs⟩

/-- However slots are allocated and reserved, every allocated slot is aligned, lies in the local
area and is apart from all slots that existed before. A local area up to the limit has a frame with
its save area behind all slots and in the frame, which keeps the stack aligned; a larger one has
none. -/
theorem slots_apart (hrs : ∀ r ∈ rs, r.AddsSlot) (h : Serves empty rs f) :
    (∀ before ty after, rs = before ++ .allocLocal ty :: after → ∃ g g' l,
      Serves empty before g ∧ g.allocLocal ty = .ok (g', l) ∧ Serves g' after f ∧
        Allotted g g' ty l ∧ Allotted g f ty l) ∧
    (f.localsSize ≤ maxLocals → ∃ frame, Frame.ofLocals f.localsSize = .ok frame ∧
      (∀ s ∈ f.locals, s.offset + s.ty.bytes ≤ frame.xmmSave) ∧
      frame.xmmSave + 64 ≤ frame.size ∧ (frame.size + Frame.pushed) % 16 = 0) ∧
    (maxLocals < f.localsSize → Frame.ofLocals f.localsSize = .error .overflow) := by
  refine ⟨fun before ty after hsplit => ?_, fun hsize => ?_, ofLocals_eq_error⟩
  · subst hsplit
    obtain ⟨hbefore, hrest⟩ := List.forall_mem_append.mp hrs
    obtain ⟨g, g', hg, hserve, hafter⟩ := h.split
    obtain ⟨⟨_, l⟩, halloc, rfl⟩ := exists_of_map_eq_ok (Request.serve_eq_ok hserve).2
    have henclosed := (enclosed_empty.serves hbefore hg).1
    have henclosed' := (henclosed.serve (r := .allocLocal ty) trivial hserve).1
    have hlong := (henclosed'.serves (List.forall_mem_cons.mp hrest).2 hafter).2
    exact ⟨g, _, l, hg, halloc, hafter, henclosed.allotted halloc (.refl _),
      henclosed.allotted halloc hlong⟩
  · obtain ⟨frame, hframe, hsave, hroom, haligned⟩ := frame_spec hsize
    refine ⟨frame, hframe, fun s hs => ?_, hroom, haligned⟩
    exact Int.le_trans ((enclosed_empty.serves hrs h).1.slot_le s hs) hsave

/-- A byte, a slot at an odd place behind it, and a vector. -/
def mixed : List Request := [.allocLocal .i8, .reserveLocal .i32 21, .allocLocal .v128]

theorem serves_mixed : Serves empty mixed
    { locals := #[⟨.i8, 0⟩, ⟨.i32, 21⟩, ⟨.v128, 32⟩], localsSize := 48 } := by
  have byte : Request.serve empty (.allocLocal .i8) =
      .ok { locals := #[⟨.i8, 0⟩], localsSize := 1 } := rfl
  have odd : Request.serve { locals := #[⟨.i8, 0⟩], localsSize := 1 } (.reserveLocal .i32 21) =
      .ok { locals := #[⟨.i8, 0⟩, ⟨.i32, 21⟩], localsSize := 25 } := by cbv
  have vector : Request.serve { locals := #[⟨.i8, 0⟩, ⟨.i32, 21⟩], localsSize := 25 }
      (.allocLocal .v128) =
      .ok { locals := #[⟨.i8, 0⟩, ⟨.i32, 21⟩, ⟨.v128, 32⟩], localsSize := 48 } := rfl
  exact .cons trivial byte (.cons trivial odd (.cons trivial vector (.nil _)))

theorem slots_apart_mixed : (∀ r ∈ mixed, r.AddsSlot) ∧ ∃ f, Serves empty mixed f ∧
    f.locals = #[⟨.i8, 0⟩, ⟨.i32, 21⟩, ⟨.v128, 32⟩] ∧ f.localsSize = 48 ∧
    (∃ g l, Allotted g f .v128 l) ∧ ∃ frame, Frame.ofLocals f.localsSize = .ok frame ∧
      frame = ⟨48, 120⟩ ∧ ∀ s ∈ f.locals, s.offset + s.ty.bytes ≤ frame.xmmSave := by
  have hrs : ∀ r ∈ mixed, r.AddsSlot := by simp [mixed, Request.AddsSlot]
  obtain ⟨halloc, hframe, -⟩ := slots_apart hrs serves_mixed
  obtain ⟨g, -, l, -, -, -, -, hallotted⟩ :=
    halloc [.allocLocal .i8, .reserveLocal .i32 21] .v128 [] rfl
  obtain ⟨frame, hlaid, hslots, -⟩ := hframe (by decide)
  refine ⟨hrs, _, serves_mixed, rfl, rfl, ⟨g, l, hallotted⟩, frame, hlaid, ?_, hslots⟩
  cases hlaid
  rfl

/-- A slot at an offset that is a signed 32-bit number, whose end is one too, and yet the local area
is too large for a frame. -/
theorem slot_without_frame : ∃ f, Serves empty [.reserveLocal .i32 0x7fffff80] f ∧
    f.localsSize = 0x7fffff84 ∧ Frame.ofLocals f.localsSize = .error .overflow := by
  have reserved : Request.serve empty (.reserveLocal .i32 0x7fffff80) =
      .ok { locals := #[⟨.i32, 0x7fffff80⟩], localsSize := 0x7fffff84 } := by cbv
  exact ⟨_, .cons trivial reserved (.nil _), rfl, ofLocals_eq_error (by decide)⟩

end Recompiler.IR.Fragment
