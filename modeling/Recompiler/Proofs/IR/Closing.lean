import Recompiler.Proofs.IR.Rereading

/-!
Which listings are read: those whose lines have types that are accepted, whose references name what
is in the listing, and whose slots end where a slot can end.
-/
namespace Recompiler.IR

open Fragment

/-- The type of the local slot that a line accesses. -/
def Line.slotTy? (l : Line) : Option Ty :=
  match l.op with
  | .loadLocal => l.result.map (·.1)
  | .storeLocal => (l.args.map (·.ty))[1]?
  | _ => none

/-- A local slot that a line names by its offset ends where a slot can end. -/
def Line.SlotFits (l : Line) : Prop := ∀ ty x, l.slotTy? = some ty →
  l.args[0]? = some (.constant (.i32 x)) → x.toInt32.toInt + ty.bytes ≤ maxLocalsSize

/-- Whatever paragraphs refer to is in them, with the type that it has there. -/
structure Grounded (ps : List Paragraph) : Prop where
  block : ∀ p ∈ ps, ∀ l ∈ p.lines, ∀ name, .reference .blk name ∈ l.args → ∃ q ∈ ps, q.name = name
  result : ∀ p ∈ ps, ∀ l ∈ p.lines, ∀ ty name, ty ≠ .blk → .reference ty name ∈ l.args →
    ∃ q ∈ ps, ∃ l' ∈ q.lines, l'.result = some (ty, name)
  ty_eq : ∀ p ∈ ps, ∀ l ∈ p.lines, ∀ q ∈ ps, ∀ l' ∈ q.lines, ∀ ty ty' name,
    l.result = some (ty, name) → l'.result = some (ty', name) → ty = ty'

namespace Parser
variable {f f' f₀ : Fragment} {r : Reference}

namespace Draft

variable {d : Draft} {bs : List BlockId} {b : BlockId} {l : List InstrId} {i : InstrId}
  {v : ValueId}

/-! ### Slots fit -/

theorem exists_reserveLocal (f : Fragment) {ty : Ty} {offset : Int}
    (h : offset + ty.bytes ≤ maxLocalsSize) : ∃ p, f.reserveLocal ty offset = .ok p := by
  unfold Fragment.reserveLocal
  split
  · exact ⟨_, rfl⟩
  · rw [if_neg (Int.not_lt.mpr h)]
    exact ⟨_, rfl⟩

/-- An argument that is a number was written as it. -/
theorem operand?_constant {c : Constant} {n : Slot} (hv : (d.fragment.instr i).arg n = some v)
    (hc : (d.fragment.value v).origin = .constant c) (hblk : c.ty ≠ .blk) :
    d.operand? i n = some (.constant c) := by
  unfold operand?
  rw [hv]
  exact congrArg some (operand_plain hc hblk)

theorem fits_line {ln : Line} (h : Placed d) (hat : At d bs b l) (hargs : ∀ o ∈ ln.args, o.Lexical)
    (hfits : ln.SlotFits) : d.Fits (.instr ln) := by
  obtain ⟨-, -, -, hself⟩ := addCode_spec h hat hargs
  have hid : (d.fragment.appendInstr ln.op (ln.result.map (·.1))).2 = ⟨d.fragment.instrs.size⟩ := by
    rw [appendInstr_eq ln.op _ hat.point_eq]
  change ∃ f, reserveLocal _ _ _ _ _ = .ok f
  rw [hid]
  generalize hf : (d.addCode ln).fragment = f
  -- the type of the slot is the one that the line names
  have hslot : ∀ ty v x, ln.slotTy? = some ty →
      (f.instr ⟨d.fragment.instrs.size⟩).arg 0 = some v → (f.value v).origin = .constant (.i32 x) →
      ∃ p, f.reserveLocal ty x.toInt32.toInt = .ok p := by
    intro ty v x hty hv hx
    refine exists_reserveLocal f (hfits ty x hty ?_)
    rw [← hf] at hv hx
    exact (hself 0).symm.trans (operand?_constant hv hx (by simp [Constant.ty]))
  unfold Line.slotTy? at hslot
  unfold reserveLocal
  dsimp only
  split
  · next ty v hty hv =>
    split
    · next x hx =>
      unfold Value.constant? at hx
      split at hx
      · next c hc =>
        cases hx
        obtain ⟨p, hp⟩ := hslot ty v x hty hv hc
        exact ⟨p.1, by rw [hp]; rfl⟩
      · cases hx
    · exact ⟨f, rfl⟩
  · exact ⟨f, rfl⟩

theorem fitsAll_append {its its' : List Item} (h : d.FitsAll its)
    (h' : (its.foldl add d).FitsAll its') : d.FitsAll (its ++ its') := by
  induction its generalizing d with
  | nil => exact h'
  | cons it its ih => exact ⟨h.1, ih h.2 h'⟩

theorem fitsAll_lines (ls : List Line) (h : Placed d) (hat : At d bs b l)
    (hls : ∀ ln ∈ ls, ln.Lexical ∧ ln.Typed) (hfits : ∀ ln ∈ ls, ln.SlotFits) :
    d.FitsAll (ls.map .instr) := by
  induction ls generalizing d l with
  | nil => trivial
  | cons ln ls ih =>
    obtain ⟨hlex, htyped⟩ := hls ln (by simp)
    obtain ⟨hplaced, hat', -⟩ := line_addLine h hat htyped.length_args_le hlex.args
    exact ⟨fits_line h hat hlex.args (hfits ln (by simp)),
      ih hplaced hat' (fun x hx => hls x (by simp [hx])) fun x hx => hfits x (by simp [hx])⟩

theorem fitsAll_paragraphs {ps : List Paragraph} (h : Placed d)
    (hps : ∀ it ∈ ps.flatMap Paragraph.items, it.Valid)
    (hfits : ∀ p ∈ ps, ∀ ln ∈ p.lines, ln.SlotFits) : d.FitsAll (ps.flatMap Paragraph.items) := by
  induction ps generalizing d with
  | nil => trivial
  | cons p ps ih =>
    obtain ⟨hplaced, hat, -⟩ := addBlock_spec h p.name
    have hls : ∀ ln ∈ p.lines, ln.Lexical ∧ ln.Typed := fun ln hln =>
      hps (.instr ln) (List.mem_flatMap.mpr ⟨p, by simp, by simp [Paragraph.items, hln]⟩)
    rw [List.flatMap_cons]
    refine fitsAll_append
      ⟨trivial, fitsAll_lines p.lines hplaced hat hls (hfits p (by simp))⟩ ?_
    refine ih (addLines_spec p.lines hplaced hat hls).1 (fun it hit => ?_)
      fun q hq => hfits q (by simp [hq])
    exact hps it (by rw [List.flatMap_cons]; exact List.mem_append_right _ hit)

/-! ### References resolve -/

theorem find?_reference {rs : List Reference}
    (hdistinct : rs.Pairwise fun r s => ¬ (r.instr = s.instr ∧ r.slot = s.slot)) (hr : r ∈ rs) :
    rs.find? (fun s => s.instr = r.instr ∧ s.slot = r.slot) = some r := by
  induction rs with
  | nil => cases hr
  | cons s rs ih =>
    obtain ⟨hfirst, hrest⟩ := List.pairwise_cons.mp hdistinct
    rw [List.find?_cons]
    obtain rfl | hr := List.mem_cons.mp hr
    · simp
    · rw [decide_eq_false (hfirst r hr)]
      exact ih hrest hr

/-- An open reference was written in one of the lines. -/
theorem mem_args_of_reference (h : Placed d) (hr : r ∈ d.references) :
    ∃ p ∈ d.listing, ∃ ln ∈ p.lines, .reference r.ty r.name ∈ ln.args := by
  obtain ⟨hlive, hnone⟩ := h.pending r hr
  obtain ⟨l, hl, hmem⟩ := h.linked.listed r.instr hlive
  have horder : (d.fragment.instr r.instr).block ∈ d.fragment.order :=
    h.linked.order_perm.mem_iff.mpr (List.mem_map_of_mem (List.mem_range.mpr hl.block_lt))
  refine ⟨_, List.mem_map_of_mem horder, d.line r.instr, ?_, ?_⟩
  · rw [paragraph, hl.blockInstrs_eq]
    exact List.mem_map_of_mem hmem
  · refine List.mem_filterMap.mpr ⟨r.slot, List.mem_finRange _, ?_⟩
    unfold operand?
    rw [hnone]
    dsimp only
    rw [find?_reference h.distinct hr]
    rfl

/-- A block that is written as `name` has this label. -/
theorem label_of_mem_listing {p : Paragraph} (hp : p ∈ d.listing) (hname : IsLabel p.name) :
    ∃ b ∈ d.fragment.order, (d.fragment.block b).label = some p.name := by
  obtain ⟨b, hb, rfl⟩ := List.mem_map.mp hp
  refine ⟨b, hb, ?_⟩
  unfold paragraph at hname ⊢
  cases hl : (d.fragment.block b).label with
  | none =>
    rw [hl] at hname
    exact absurd hname not_isLabel_default
  | some s => rfl

/-- A line with a result is the one of an instruction with this result and label. -/
theorem result_of_mem_listing {p : Paragraph} {ln : Line} {ty : Ty} {name : String}
    (hp : p ∈ d.listing) (hln : ln ∈ p.lines) (hres : ln.result = some (ty, name))
    (hname : IsLabel name) : ∃ i ∈ d.fragment.allInstrs, ∃ v,
      (d.fragment.instr i).label = some name ∧ (d.fragment.instr i).result = some v ∧
        d.fragment.ty v = ty := by
  obtain ⟨b, hb, rfl⟩ := List.mem_map.mp hp
  obtain ⟨i, hi, rfl⟩ := List.mem_map.mp hln
  change d.fragment.resultLabel i = _ at hres
  obtain ⟨v, hv, hres⟩ := Option.map_eq_some_iff.mp hres
  obtain ⟨hty, hlabel⟩ := Prod.mk.inj hres
  refine ⟨i, List.mem_flatMap.mpr ⟨b, hb, hi⟩, v, ?_, hv, hty⟩
  cases hl : (d.fragment.instr i).label with
  | none =>
    rw [hl] at hlabel
    rw [← hlabel] at hname
    exact absurd hname not_isLabel_default
  | some s =>
    rw [hl] at hlabel
    exact congrArg some hlabel

/-- An instruction with a result and a label has a line with both. -/
theorem mem_listing_of_result {i : InstrId} {v : ValueId} {name : String}
    (hi : i ∈ d.fragment.allInstrs) (hlabel : (d.fragment.instr i).label = some name)
    (hv : (d.fragment.instr i).result = some v) :
    ∃ p ∈ d.listing, ∃ ln ∈ p.lines, ln.result = some (d.fragment.ty v, name) := by
  obtain ⟨b, hb, hi⟩ := List.mem_flatMap.mp hi
  refine ⟨_, List.mem_map_of_mem hb, d.line i, List.mem_map_of_mem hi, ?_⟩
  change d.fragment.resultLabel i = _
  unfold resultLabel
  rw [hv, hlabel]
  rfl

end Draft

/-- A reference can be filled if what it names has its type. -/
theorem exists_fill (hs : SameSkeleton f₀ f) (hcons : f₀.Consistent)
    (hblock : r.ty = .blk → ∃ b ∈ f₀.order, (f₀.block b).label = some r.name)
    (hresult : r.ty ≠ .blk →
      (∃ i ∈ f₀.allInstrs, ∃ v, (f₀.instr i).label = some r.name ∧ (f₀.instr i).result = some v) ∧
      ∀ i ∈ f₀.allInstrs, ∀ v, (f₀.instr i).label = some r.name → (f₀.instr i).result = some v →
        f₀.ty v = r.ty) :
    ∃ f', r.fill (blockNames f₀) (resultNames f₀) f = some f' := by
  unfold Reference.fill
  by_cases hblk : r.ty = .blk
  · rw [if_pos hblk]
    obtain ⟨b, hb, hlabel⟩ := hblock hblk
    cases hfound : (blockNames f₀)[r.name]? with
    | some c => exact ⟨_, rfl⟩
    | none =>
      rw [getElem?_blockNames, List.findSome?_eq_none_iff] at hfound
      have := hfound b (List.mem_reverse.mpr hb)
      simp [hlabel] at this
  · rw [if_neg hblk]
    obtain ⟨⟨i, hi, v, hlabel, hv⟩, hty⟩ := hresult hblk
    cases hfound : (resultNames f₀)[r.name]? with
    | some u =>
      obtain ⟨j, hj, hlabel, hu⟩ := label_of_resultNames hfound
      have hsame : f.ty u = r.ty :=
        (hs.ty_eq u (hcons.result_lt j u hu)).trans (hty j hj u hlabel hu)
      exact ⟨_, if_pos hsame⟩
    | none =>
      rw [getElem?_resultNames, List.findSome?_eq_none_iff] at hfound
      have := hfound i (List.mem_reverse.mpr hi)
      simp [hlabel, hv] at this

/-- Paragraphs that refer to each other only describe a fragment. -/
theorem exists_assemble {ps : List Paragraph}
    (hps : ∀ it ∈ ps.flatMap Paragraph.items, it.Valid) (hgrounded : Grounded ps) :
    ∃ f, assemble (ps.flatMap Paragraph.items) = some f := by
  obtain ⟨h, hlisting⟩ := Draft.addParagraphs_spec Draft.placed_empty hps
  generalize hd : (ps.flatMap Paragraph.items).foldl Draft.add {} = d at h hlisting
  replace hlisting : d.listing = ps := hlisting
  have hlines : ∀ p ∈ ps, ∀ ln ∈ p.lines, ln.Lexical := fun p hp =>
    (lexical_of_valid hps p hp).lines
  have hfill : ∀ r ∈ d.references, ∀ f, SameSkeleton d.fragment f →
      ∃ f', r.fill (blockNames d.fragment) (resultNames d.fragment) f = some f' := by
    intro r hr f hs
    obtain ⟨p, hp, ln, hln, hmem⟩ := Draft.mem_args_of_reference h hr
    rw [hlisting] at hp
    have hname : IsLabel r.name := (hlines p hp ln hln).args _ hmem
    refine exists_fill hs h.consistent (fun hblk => ?_) fun hblk => ⟨?_, fun i hi v hl hv => ?_⟩
    · rw [hblk] at hmem
      obtain ⟨q, hq, hqname⟩ := hgrounded.block p hp ln hln r.name hmem
      rw [← hqname] at hname ⊢
      exact Draft.label_of_mem_listing (hlisting ▸ hq) hname
    · obtain ⟨q, hq, ln', hln', hres⟩ := hgrounded.result p hp ln hln r.ty r.name hblk hmem
      obtain ⟨i, hi, v, hl, hv, -⟩ := Draft.result_of_mem_listing (hlisting ▸ hq) hln' hres hname
      exact ⟨i, hi, v, hl, hv⟩
    · obtain ⟨q, hq, ln', hln', hres⟩ := hgrounded.result p hp ln hln r.ty r.name hblk hmem
      obtain ⟨q', hq', ln'', hln'', hres'⟩ := Draft.mem_listing_of_result hi hl hv
      exact hgrounded.ty_eq q' (hlisting ▸ hq') ln'' hln'' q hq ln' hln' _ _ _ hres' hres
  have hall : ∀ (rs : List Reference) (f : Fragment), (∀ r ∈ rs, r ∈ d.references) →
      SameSkeleton d.fragment f →
      ∃ f', rs.foldlM (Reference.fill (blockNames d.fragment) (resultNames d.fragment)) f =
        some f' := by
    intro rs
    induction rs with
    | nil => exact fun f _ _ => ⟨f, rfl⟩
    | cons r rs ih =>
      intro f hrs hs
      obtain ⟨g, hg⟩ := hfill r (hrs r (by simp)) f hs
      obtain ⟨f', hf'⟩ := ih g (fun x hx => hrs x (by simp [hx])) (hs.trans (sameSkeleton_fill hg))
      exact ⟨f', by rw [List.foldlM_cons, hg]; exact hf'⟩
  unfold assemble Draft.resolve
  rw [hd]
  exact hall _ _ (fun r hr => List.mem_reverse.mp hr) (.refl _)


/-- A listing whose references are in it is read, and the fragment reads like it. -/
theorem parse_of_grounded {ps : List Paragraph} {src : String}
    (hps : ∀ it ∈ ps.flatMap Paragraph.items, it.Valid) (hgrounded : Grounded ps)
    (hfits : ∀ p ∈ ps, ∀ ln ∈ p.lines, ln.SlotFits)
    (hsrc : src.toList = ps.flatMap Paragraph.chars) :
    ∃ f, parse src = .ok f ∧ f.listing = ps := by
  obtain ⟨f, hf⟩ := exists_assemble hps hgrounded
  exact ⟨f, parse_of_listing hps (Draft.fitsAll_paragraphs Draft.placed_empty hps hfits) hsrc hf,
    (listing_assemble hps hf).2.2⟩

end Parser

end Recompiler.IR
