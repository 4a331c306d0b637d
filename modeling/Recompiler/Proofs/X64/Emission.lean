import Recompiler.Proofs.X64.CodeBuffer
import Recompiler.Proofs.X64.Linking
import Recompiler.X64.Backend

/-!
Emission against the code it stands for. Wherever emission stops, what lay in the buffer before is
untouched, since every displacement that is filled in belongs to a jump of the new code. If nothing
was dropped, the new code is the linked code of the fragment.
-/
namespace Recompiler.X64

open IR CodeBuffer

/-! ### The older code -/

namespace Emission

variable {b : CodeBuffer} {e e' : Emission}

/-- Emission into a buffer that leaves its content alone. -/
structure Behind (b : CodeBuffer) (e : Emission) : Prop where
  keeps : Keeps b e.buffer
  sites : ∀ j ∈ e.jumps, b.offset ≤ j.1

theorem connect_eq_ok {j : Nat × Label} (h : e.connect j = .ok e') : ∃ place disp,
    e.places.lookup j.2 = some place ∧ displacement (place - (j.1 + 4)) = .ok disp ∧
    e' = { e with buffer := e.buffer.overwrite j.1 disp.toUInt32 } := by
  unfold connect at h
  split at h
  case h_1 place hplace =>
    obtain ⟨buffer, hbuffer, h⟩ := Interp.bind_eq_ok h
    obtain ⟨disp, hdisp, hbuffer⟩ := Interp.bind_eq_ok hbuffer
    cases h
    cases hbuffer
    exact ⟨place, disp, hplace, hdisp, rfl⟩
  case h_2 => cases h

/-- An invariant of the emission that connecting a jump keeps, over some of the jumps. -/
theorem foldlM_connect {P : Emission → Prop} {js : List (Nat × Label)}
    (hstep : ∀ j ∈ js, ∀ e e', P e → e.connect j = .ok e' → P e') (he : P e)
    (h : js.foldlM connect e = .ok e') : P e' := by
  induction js generalizing e with
  | nil =>
    cases h
    exact he
  | cons j js ih =>
    rw [List.foldlM_cons] at h
    obtain ⟨e₁, hj, h⟩ := Interp.bind_eq_ok h
    have hfirst := hstep j List.mem_cons_self e e₁ he hj
    exact ih (fun j hj => hstep j (List.mem_cons_of_mem _ hj)) hfirst h

theorem Behind.connect (h : Behind b e) {j : Nat × Label} (hj : b.offset ≤ j.1)
    (hc : e.connect j = .ok e') : Behind b e' := by
  obtain ⟨place, disp, -, -, rfl⟩ := connect_eq_ok hc
  exact ⟨h.keeps.overwrite hj _, h.sites⟩

theorem Behind.settle (h : Behind b e) {due : Label → Bool} (hs : e.settle due = .ok e') :
    Behind b e' := by
  refine foldlM_connect (P := Behind b) (fun j hj e₁ e₂ h₁ hc => ?_) ?_ hs
  · exact h₁.connect (h.sites j (List.mem_filter.mp hj).1) hc
  · exact ⟨h.keeps, fun j hj => h.sites j (List.mem_filter.mp hj).1⟩

theorem line_label {l : Label} (h : e.line (.label l) = .ok e') :
    e' = e.placed l ∨ ∃ due, (e.placed l).settle due = .ok e' := by
  cases l with
  | block b =>
    cases h
    exact .inl rfl
  | epilogue => exact .inr ⟨fun l => l = .epilogue, h⟩
  | inside i n => exact .inr ⟨fun l => l = .inside i n, h⟩

theorem keeps_writeAll (b : CodeBuffer) (pieces : Pieces) : Keeps b (b.writeAll pieces) :=
  (foldl_write pieces b).1

theorem Behind.line (h : Behind b e) {l : Line} (hl : e.line l = .ok e') : Behind b e' := by
  cases l with
  | instr i =>
    cases hl
    exact ⟨h.keeps.trans (keeps_writeAll _ _), h.sites⟩
  | jump cond target =>
    cases hl
    have hhead := h.keeps.trans (keeps_writeAll e.buffer (jumpHead cond))
    refine ⟨hhead.trans (keeps_writeAll _ [imm32 0]), fun j hj => ?_⟩
    obtain hj | hj := List.mem_append.mp hj
    · exact h.sites j hj
    · cases List.mem_singleton.mp hj
      exact hhead.offset_le
  | label l =>
    have hplaced : Behind b (e.placed l) := ⟨h.keeps, h.sites⟩
    obtain rfl | ⟨due, hs⟩ := line_label hl
    · exact hplaced
    · exact hplaced.settle hs

theorem Behind.lines (h : Behind b e) {ls : List Line} (hls : ls.foldlM Emission.line e = .ok e') :
    Behind b e' := by
  induction ls generalizing e with
  | nil =>
    cases hls
    exact h
  | cons l ls ih =>
    rw [List.foldlM_cons] at hls
    obtain ⟨e₁, hl, hls⟩ := Interp.bind_eq_ok hls
    exact ih (h.line hl) hls

/-- However far emission gets, the older code stays. -/
theorem Behind.generate (h : Behind b e) (parts : List (Assembling Assembly)) :
    Keeps b (e.generate parts).1.buffer := by
  induction parts generalizing e with
  | nil =>
    unfold Emission.generate andThen
    split
    case h_1 e' hs => exact (h.settle hs).keeps
    case h_2 => exact h.keeps
  | cons part parts ih =>
    cases part with
    | error r => exact h.keeps
    | ok lines =>
      unfold Emission.generate andThen
      split
      case h_1 e' hls => exact ih (h.lines hls)
      case h_2 => exact h.keeps

theorem keeps_generate (b : CodeBuffer) (parts : List (Assembling Assembly)) :
    Keeps b (Emission.generate { buffer := b } parts).1.buffer :=
  Behind.generate ⟨.refl b, fun _ hj => absurd hj List.not_mem_nil⟩ parts

/-! ### The new code -/

/-- The lines have been written from `start` on, with these displacements so far. The displacement
of a jump leads to its label, or the jump is waiting. -/
structure Wrote (start : Nat) (a : Assembly) (disp : Nat → Int32) (waiting : List (Nat × Label))
    (e : Emission) : Prop where
  offset_eq : e.buffer.offset = start + a.size
  view_eq : e.buffer.view start e.buffer.offset = a.encode disp start
  places_eq : e.places = a.labels start
  waits : ∀ j ∈ waiting, j ∈ a.sites start
  leads : ∀ j ∈ a.sites start, j ∈ waiting ∨ Assembly.Leads e.places disp j

/-- Unless something was dropped, the lines have been written. -/
def Progress (start : Nat) (a : Assembly) (e : Emission) : Prop :=
  e.buffer.overflowed = false → ∃ disp, Wrote start a disp e.jumps e

variable {start : Nat} {a : Assembly} {disp : Nat → Int32} {j : Nat × Label}
  {js waiting : List (Nat × Label)}

theorem toInt_of_displacement {dist : Int} {d : Int32} (h : displacement dist = .ok d) :
    d.toInt = dist := by
  unfold displacement at h
  split at h
  · cases h
  case isFalse hrange =>
    cases h
    simp only [Bool.or_eq_true, decide_eq_true_eq, not_or, Int.not_lt] at hrange
    exact Int32.toInt_ofInt_of_le (by omega) (by omega)

theorem Wrote.congr {waiting' : List (Nat × Label)} (h : Wrote start a disp waiting e)
    (hbuffer : e'.buffer = e.buffer) (hplaces : e'.places = e.places)
    (hwaiting : ∀ j, j ∈ waiting' ↔ j ∈ waiting) : Wrote start a disp waiting' e' where
  offset_eq := hbuffer ▸ h.offset_eq
  view_eq := hbuffer ▸ h.view_eq
  places_eq := hplaces ▸ h.places_eq
  waits j hj := h.waits j ((hwaiting j).mp hj)
  leads j hj := hplaces ▸ (h.leads j hj).imp_left (hwaiting j).mpr

/-- A jump that is connected waits no longer. -/
theorem Wrote.connect (h : Wrote start a disp (j :: waiting) e) (hc : e.connect j = .ok e') :
    ∃ disp', Wrote start a disp' waiting e' := by
  have hj : j ∈ a.sites start := h.waits j List.mem_cons_self
  obtain ⟨place, d, hplace, hd, rfl⟩ := connect_eq_ok hc
  obtain ⟨x, z, hsite, hbytes⟩ := Assembly.encode_update hj disp
  have hview := h.view_eq
  rw [← Function.update_eq_self j.1 disp, hbytes] at hview
  refine ⟨Function.update disp j.1 d, ?_, ?_, h.places_eq, ?_, fun j' hj' => ?_⟩
  · rw [offset_overwrite]
    exact h.offset_eq
  · rw [offset_overwrite, hbytes]
    exact view_overwrite_mid e.buffer d.toUInt32 hview hsite (Assembly.length_imm32 _)
      (h.offset_eq ▸ Nat.le_add_right ..)
  · exact fun j' hj' => h.waits j' (List.mem_cons_of_mem _ hj')
  · by_cases heq : j'.1 = j.1
    · obtain rfl := Assembly.site_unique hj' hj heq
      refine .inr ⟨place, hplace, ?_⟩
      rw [Function.update_self, toInt_of_displacement hd]
    · obtain hwait | ⟨place', hplace', hdisp⟩ := h.leads j' hj'
      · obtain rfl | hwait := List.mem_cons.mp hwait
        · exact absurd rfl heq
        · exact .inl hwait
      · exact .inr ⟨place', hplace', by rw [Function.update_of_ne heq, hdisp]⟩

theorem Wrote.connectAll (h : Wrote start a disp (js ++ waiting) e)
    (hc : js.foldlM Emission.connect e = .ok e') : ∃ disp', Wrote start a disp' waiting e' := by
  induction js generalizing e disp with
  | nil =>
    cases hc
    exact ⟨disp, h⟩
  | cons j js ih =>
    rw [List.foldlM_cons] at hc
    obtain ⟨e₁, hj, hc⟩ := Interp.bind_eq_ok hc
    obtain ⟨disp₁, h₁⟩ := h.connect hj
    exact ih h₁ hc

theorem connectAll_frame (h : js.foldlM Emission.connect e = .ok e') :
    e'.buffer.overflowed = e.buffer.overflowed ∧ e'.jumps = e.jumps := by
  refine foldlM_connect (P := fun e' => e'.buffer.overflowed = e.buffer.overflowed ∧
    e'.jumps = e.jumps) (fun j _ e₁ e₂ h₁ hc => ?_) ⟨rfl, rfl⟩ h
  obtain ⟨place, d, -, -, rfl⟩ := connect_eq_ok hc
  exact ⟨(overflowed_overwrite _ _ _).trans h₁.1, h₁.2⟩

theorem Progress.settle (h : Progress start a e) {due : Label → Bool}
    (hs : e.settle due = .ok e') : Progress start a e' := by
  intro hfits
  obtain ⟨hover, hjumps⟩ := connectAll_frame hs
  obtain ⟨disp, hwrote⟩ := h (hover ▸ hfits)
  have hready : Wrote start a disp
      (e.jumps.filter (fun j => due j.2) ++ e.jumps.filter fun j => !due j.2)
      { e with jumps := e.jumps.filter fun j => !due j.2 } := by
    refine hwrote.congr rfl rfl fun j => ?_
    rw [List.mem_append, List.mem_filter, List.mem_filter]
    cases due j.2 <;> simp
  rw [hjumps]
  exact hready.connectAll hs

theorem foldl_write_fits {pieces : Pieces} {b : CodeBuffer}
    (h : (pieces.foldl write b).overflowed = false) : b.overflowed = false := by
  cases hb : b.overflowed with
  | false => rfl
  | true =>
    rw [(foldl_write pieces b).2.2 hb] at h
    cases h

/-- A line that needs bytes puts them behind the others. -/
theorem Wrote.append (h : Wrote start a disp waiting e) {l : Line} {new : List (Nat × Label)}
    {bytes : List UInt8} (happends : Appends e.buffer e'.buffer bytes)
    (hbytes : Assembly.encode disp (start + a.size) [l] = bytes)
    (hlabels : Assembly.labels (start + a.size) [l] = []) (hplaces : e'.places = e.places)
    (hnew : Assembly.sites (start + a.size) [l] = new) :
    Wrote start (a ++ [l]) disp (waiting ++ new) e' := by
  have hstart : start ≤ e.buffer.offset := h.offset_eq ▸ Nat.le_add_right ..
  have hlength : l.size = bytes.length := by
    have hlength := Assembly.length_encode disp (start + a.size) [l]
    rw [hbytes] at hlength
    exact hlength.symm
  refine ⟨?_, ?_, ?_, fun j hj => ?_, fun j hj => ?_⟩
  · rw [happends.offset_eq, h.offset_eq, Assembly.size_append, ← hlength, Nat.add_assoc]
    rfl
  · rw [view_append hstart happends.offset_le, happends.written,
      happends.view_eq (Nat.le_refl _), h.view_eq, Assembly.encode_append, hbytes]
  · rw [hplaces, h.places_eq, Assembly.labels_append, hlabels, List.append_nil]
  · rw [Assembly.sites_append, hnew]
    exact List.mem_append.mpr ((List.mem_append.mp hj).imp_left (h.waits j))
  · rw [Assembly.sites_append, hnew] at hj
    rw [hplaces]
    obtain hj | hj := List.mem_append.mp hj
    · exact (h.leads j hj).imp_left (List.mem_append_left _)
    · exact .inl (List.mem_append_right _ hj)

theorem Wrote.placed (h : Wrote start a disp waiting e) (l : Label) :
    Wrote start (a ++ [.label l]) disp waiting (e.placed l) := by
  have hsites : Assembly.sites start (a ++ [.label l]) = a.sites start := by
    rw [Assembly.sites_append]
    exact List.append_nil _
  refine ⟨?_, ?_, ?_, fun j hj => ?_, fun j hj => ?_⟩
  · rw [Assembly.size_append]
    exact h.offset_eq
  · rw [Assembly.encode_append]
    exact h.view_eq.trans (List.append_nil _).symm
  · rw [Assembly.labels_append, ← h.places_eq, ← h.offset_eq]
    rfl
  · rw [hsites]
    exact h.waits j hj
  · rw [hsites] at hj
    refine (h.leads j hj).imp_right fun ⟨place, hplace, hdisp⟩ => ⟨place, ?_, hdisp⟩
    change (e.places ++ _).lookup j.2 = _
    rw [List.lookup_append, hplace]
    rfl

/-- Displacements behind the code may be chosen. -/
theorem Wrote.update (h : Wrote start a disp waiting e) {site : Nat} (hsite : start + a.size ≤ site)
    (v : Int32) : Wrote start a (Function.update disp site v) waiting e := by
  have hsame : ∀ j ∈ a.sites start, Function.update disp site v j.1 = disp j.1 := by
    intro j hj
    have hbounds := Assembly.site_bounds hj
    have hne : j.1 ≠ site := by omega
    exact Function.update_of_ne hne v disp
  refine ⟨h.offset_eq, ?_, h.places_eq, h.waits, fun j hj => ?_⟩
  · rw [Assembly.encode_congr hsame]
    exact h.view_eq
  · refine (h.leads j hj).imp_right fun ⟨place, hplace, hdisp⟩ => ⟨place, hplace, ?_⟩
    rw [hsame j hj, hdisp]

theorem Progress.line (h : Progress start a e) {l : Line} (hl : e.line l = .ok e') :
    Progress start (a ++ [l]) e' := by
  intro hfits
  cases l with
  | instr i =>
    cases hl
    obtain ⟨disp, hwrote⟩ := h (foldl_write_fits hfits)
    have happends := (foldl_write i.pieces e.buffer).2.1 hfits
    have hbytes : Assembly.encode disp (start + a.size) [.instr i] = i.pieces.flatten :=
      List.append_nil _
    have hnew : Assembly.sites (start + a.size) [.instr i] = [] := rfl
    refine ⟨disp, ?_⟩
    rw [← List.append_nil (Emission.jumps _)]
    exact hwrote.append happends hbytes rfl rfl hnew
  | jump cond target =>
    cases hl
    have hwrite : (jumpHead cond ++ [imm32 0]).foldl write e.buffer = (e.buffer.openJump cond).1 :=
      List.foldl_append
    have hfits' : ((jumpHead cond ++ [imm32 0]).foldl write e.buffer).overflowed = false :=
      hwrite ▸ hfits
    have hhead : ((jumpHead cond).foldl write e.buffer).overflowed = false := by
      rw [List.foldl_append] at hfits'
      exact foldl_write_fits hfits'
    obtain ⟨disp, hwrote⟩ := h (foldl_write_fits hhead)
    have happends := (foldl_write (jumpHead cond ++ [imm32 0]) e.buffer).2.1 hfits'
    rw [hwrite] at happends
    have hsite : (e.buffer.openJump cond).2 =
        start + a.size + (List.flatten (jumpHead cond)).length := by
      rw [← hwrote.offset_eq]
      exact ((foldl_write (jumpHead cond) e.buffer).2.1 hhead).offset_eq
    have hbytes : Assembly.encode (Function.update disp (e.buffer.openJump cond).2 0)
        (start + a.size) [.jump cond target] = (jumpHead cond ++ [imm32 0]).flatten := by
      simp only [Assembly.encode, hsite, Function.update_self, List.flatten_append,
        List.flatten_singleton, List.append_nil]
    have hnew : Assembly.sites (start + a.size) [.jump cond target] =
        [((e.buffer.openJump cond).2, target)] := by
      rw [hsite]
      rfl
    exact ⟨_, (hwrote.update (by omega) 0).append happends hbytes rfl rfl hnew⟩
  | label l =>
    have hplaced : Progress start (a ++ [.label l]) (e.placed l) := fun hfits => by
      obtain ⟨disp, hwrote⟩ := h hfits
      exact ⟨disp, hwrote.placed l⟩
    obtain rfl | ⟨due, hs⟩ := line_label hl
    · exact hplaced hfits
    · exact hplaced.settle hs hfits

theorem Progress.lines (h : Progress start a e) {ls : Assembly}
    (hls : ls.foldlM Emission.line e = .ok e') : Progress start (a ++ ls) e' := by
  induction ls generalizing a e with
  | nil =>
    cases hls
    rwa [List.append_nil]
  | cons l ls ih =>
    rw [List.foldlM_cons] at hls
    obtain ⟨e₁, hl, hls⟩ := Interp.bind_eq_ok hls
    rw [← List.singleton_append, ← List.append_assoc]
    exact ih (h.line hl) hls

/-- When everything has been generated, no jump waits. -/
theorem Progress.generate (h : Progress start a e) {parts : List (Assembling Assembly)}
    (hr : (e.generate parts).2 = .ok ()) (hfits : (e.generate parts).1.buffer.overflowed = false) :
    ∃ rest disp, parts.mapM id = .ok rest ∧
      Wrote start (a ++ rest.flatten) disp [] (e.generate parts).1 := by
  induction parts generalizing a e with
  | nil =>
    unfold Emission.generate andThen at hr hfits ⊢
    split at hr
    case h_1 e' hs =>
      simp only [hs] at hfits ⊢
      obtain ⟨disp, hwrote⟩ := h.settle hs hfits
      have hnone : e'.jumps = [] := by
        rw [(connectAll_frame hs).2]
        simp
      rw [hnone] at hwrote
      exact ⟨[], disp, rfl, by simpa using hwrote⟩
    case h_2 => cases hr
  | cons part parts ih =>
    cases part with
    | error r => cases hr
    | ok lines =>
      unfold Emission.generate andThen at hr hfits ⊢
      split at hr
      case h_1 e' hls =>
        simp only [hls] at hfits ⊢
        obtain ⟨rest, disp, hrest, hwrote⟩ := ih (h.lines hls) hr hfits
        refine ⟨lines :: rest, disp, ?_, ?_⟩
        · rw [List.mapM_cons, hrest]
          rfl
        · rw [List.flatten_cons, ← List.append_assoc]
          exact hwrote
      case h_2 => cases hr

/-- If nothing was refused and nothing was dropped, the code of the parts has been written, and all
its jumps are connected. -/
theorem wrote_generate (b : CodeBuffer) {parts : List (Assembling Assembly)}
    (hr : (generate { buffer := b } parts).2 = .ok ())
    (hfits : (generate { buffer := b } parts).1.buffer.overflowed = false) :
    ∃ as disp, parts.mapM id = .ok as ∧
      Wrote b.offset as.flatten disp [] (generate { buffer := b } parts).1 := by
  have hstart : Progress b.offset [] { buffer := b } := fun _ =>
    ⟨fun _ => 0, rfl, by simp [view, Assembly.encode], rfl, fun _ hj => absurd hj List.not_mem_nil,
      fun _ hj => absurd hj List.not_mem_nil⟩
  obtain ⟨as, disp, has, hwrote⟩ := hstart.generate hr hfits
  rw [List.nil_append] at hwrote
  exact ⟨as, disp, has, hwrote⟩

/-- No jump waits any more, so every displacement leads to its label. -/
theorem Wrote.leads_labels (h : Wrote start a disp [] e) :
    ∀ j ∈ a.sites start, Assembly.Leads (a.labels start) disp j := fun j hj => by
  rw [← h.places_eq]
  exact (h.leads j hj).resolve_left List.not_mem_nil

/-- If nothing was refused and nothing was dropped, the linked code of the parts has been
appended. -/
theorem appends_generate (b : CodeBuffer) {parts : List (Assembling Assembly)}
    (hr : (generate { buffer := b } parts).2 = .ok ())
    (hfits : (generate { buffer := b } parts).1.buffer.overflowed = false) :
    ∃ as code, parts.mapM id = .ok as ∧ Assembly.instructions as.flatten = .ok code ∧
      Appends b (generate { buffer := b } parts).1.buffer
        (code.flatMap Instruction.pieces).flatten := by
  obtain ⟨as, disp, has, hwrote⟩ := wrote_generate b hr hfits
  obtain ⟨code, hcode, hbytes⟩ := Assembly.instructions_spec hwrote.leads_labels
  refine ⟨as, code, has, hcode, keeps_generate b parts, ?_, ?_⟩
  · rw [hwrote.offset_eq, hbytes, Assembly.length_encode]
  · rw [hwrote.view_eq, hbytes]

end Emission

/-- The linked code of a fragment is that of its parts. -/
theorem Backend.instructions_eq {b : Backend} {f : Fragment} {c : Lowering} {as : List Assembly}
    {code : List Instruction} (hc : Lowering.ofFragment b.offsets f = .ok c)
    (has : c.parts.mapM id = .ok as) (hcode : Assembly.instructions as.flatten = .ok code) :
    b.instructions f = .ok code := by
  unfold Backend.instructions
  rw [hc]
  change (c.code >>= fun a => .ofFault a.instructions) = _
  unfold Lowering.code
  rw [has]
  change Assembling.ofFault (Assembly.instructions as.flatten) = _
  rw [hcode]
  rfl

end Recompiler.X64
