import Recompiler.Proofs.IR.Thinning
import Recompiler.Proofs.Pass.LoadReuse

/-!
Removal of stores keeps the meaning of a fragment. The contexts of the two runs differ at most in
bytes that a later store of the block writes before anything can see them.
-/
namespace Recompiler.Pass.ContextReuse

open IR Fragment Interp Meaning Machine

variable {f f' : Fragment} {gone : List InstrId} {i j : InstrId} {b : BlockId}
  {code l₁ l₂ : List InstrId} {k k₁ : Known} {d : Int} {r v : ValueId}

/-! ### What the pass expects to be written -/

/-- Whether a store later in the block covers the bytes of the store `i`. -/
def isCovered (f : Fragment) (k : Known) (i : InstrId) : Bool :=
  match effect f i with
  | .store d v => ((k.get? d).map fun w => (f.ty w).bytes).getD 0 ≥ (f.ty v).bytes
  | _ => false

/-- The bytes that are written later and not seen before, in front of `i` and behind it. -/
def expect (f : Fragment) (i : InstrId) (k : Known) : Known :=
  match effect f i with
  | .load d r => k.erase d (f.ty r).bytes
  | .store d v => if isCovered f k i then k else k.set d (f.ty v).bytes v
  | .anywhere | .branch => []
  | .nothing => k

/-- The bytes that the rest of a block writes before it shows them. -/
def expected (f : Fragment) (code : List InstrId) : Known := code.foldr (expect f) []

/-- The stores of a part of a block that the rest of the block covers. -/
def dropped (f : Fragment) : List InstrId → List InstrId
  | [] => []
  | i :: code => if isCovered f (expected f code) i then i :: dropped f code else dropped f code

theorem mem_dropped : i ∈ dropped f code ↔
    ∃ l₁ l₂, code = l₁ ++ i :: l₂ ∧ isCovered f (expected f l₂) i = true := by
  induction code with
  | nil => simp [dropped]
  | cons j code ih =>
    have hcons : (∃ l₁ l₂, j :: code = l₁ ++ i :: l₂ ∧ isCovered f (expected f l₂) i = true) ↔
        (j = i ∧ isCovered f (expected f code) i = true) ∨
          ∃ l₁ l₂, code = l₁ ++ i :: l₂ ∧ isCovered f (expected f l₂) i = true := by
      constructor
      · rintro ⟨l₁, l₂, e, hc⟩
        cases l₁ with
        | nil =>
          cases e
          exact .inl ⟨rfl, hc⟩
        | cons x l₁ =>
          cases e
          exact .inr ⟨l₁, l₂, rfl, hc⟩
      · rintro (⟨rfl, hc⟩ | ⟨l₁, l₂, rfl, hc⟩)
        · exact ⟨[], code, rfl, hc⟩
        · exact ⟨j :: l₁, l₂, rfl, hc⟩
    rw [hcons, ← ih, dropped]
    split
    · next hc =>
      rw [List.mem_cons]
      refine or_congr_left ⟨?_, fun h => h.1.symm⟩
      rintro rfl
      exact ⟨rfl, hc⟩
    · next hc =>
      refine ⟨.inr, fun h => h.resolve_left ?_⟩
      rintro ⟨rfl, hc'⟩
      exact hc hc'

theorem mem_dropped_split (hn : code.Nodup) (e : code = l₁ ++ i :: l₂) :
    i ∈ dropped f code ↔ isCovered f (expected f l₂) i = true := by
  rw [mem_dropped]
  constructor
  · rintro ⟨l₃, l₄, e', hc⟩
    obtain ⟨-, rfl⟩ := split_unique hn e e'
    exact hc
  · exact fun hc => ⟨l₁, l₂, e, hc⟩

theorem isCovered_iff : isCovered f k i = true ↔ ∃ d v, effect f i = .store d v ∧
    ((k.get? d).map fun w => (f.ty w).bytes).getD 0 ≥ (f.ty v).bytes := by
  unfold isCovered
  split
  · next d v h =>
    rw [h]
    simp
  · next h =>
    constructor
    · intro e
      cases e
    · rintro ⟨d, v, e, -⟩
      exact absurd e (h d v)

/-- The entries have the sizes of their values. -/
theorem size_expected {e : Entry} (he : e ∈ expected f code) : e.size = (f.ty e.value).bytes := by
  induction code with
  | nil => cases he
  | cons i code ih =>
    change e ∈ expect f i (expected f code) at he
    unfold expect at he
    split at he
    · exact ih (Known.mem_erase.mp he).1
    · split at he
      · exact ih he
      · rcases Known.mem_set.mp he with he | ⟨-, rfl⟩
        · exact ih (Known.mem_erase.mp he).1
        · rfl
    · cases he
    · cases he
    · exact ih he

/-! ### The pass -/

theorem contextOffset_trims (h : Trims f f' id gone) (hi : i ∈ f.allInstrs) (hg : i ∉ gone) :
    contextOffset? f' (f'.instr i) = contextOffset? f (f.instr i) := by
  have hvalue : ∀ v, (f'.value v).i32 = (f.value v).i32 := by
    intro v
    unfold Value.i32 Value.scalar Value.payload Value.constant?
    rw [h.values.origin_eq, h.values.ty_eq]
  unfold contextOffset?
  simp only [h.thins.arg_eq i hi hg, h.isConstant_eq, hvalue]

/-- What is left does to the context what it did. -/
theorem effect_trims (h : Trims f f' id gone) (hi : i ∈ f.allInstrs) (hg : i ∉ gone) :
    effect f' i = effect f i := by
  unfold effect
  simp only [h.op_eq i hi, h.result_eq i hi, h.thins.arg_eq i hi hg, contextOffset_trims h hi hg]

theorem EndsFit.trims (hends : EndsFit f) (h : Trims f f' id gone) : EndsFit f' := by
  intro i hi haccess d hd
  obtain ⟨hi, hg⟩ := h.mem_allInstrs.mp hi
  rw [h.op_eq i hi] at haccess
  rw [contextOffset_trims h hi hg] at hd
  rw [h.thins.opTy_eq hi hg]
  exact hends i hi haccess d hd

section
variable (hf : WellFormed f) (ho : Ordered f) (ht : Typed f) (hends : EndsFit f)
include hf ho ht hends

theorem backwardInstr_trims (h : Trims f f' id gone) (hi : i ∈ f.allInstrs) (hg : i ∉ gone)
    (k : Known) (n : Nat) : ∃ f₁ n₁, backwardInstr ⟨f', k, n⟩ i = .ok ⟨f₁, expect f i k, n₁⟩ ∧
      Trims f f₁ id (if isCovered f k i then i :: gone else gone) := by
  rw [backwardInstr_eq (h.wellFormed hf) (h.typed hf ho ht) (h.mem_allInstrs.mpr ⟨hi, hg⟩)
    (hends.trims h), effect_trims h hi hg]
  have hty : f'.ty = f.ty := funext h.values.ty_eq
  unfold expect isCovered
  cases heffect : effect f i with
  | store d v =>
    dsimp only
    rw [hty]
    split
    · next hcovered =>
      obtain ⟨hop, -⟩ := effect_eq_store heffect
      obtain ⟨f₁, hremove, h₁⟩ := h.remove hf hi hg (store_stored ht hi hop).2 (by rw [hop]; rfl)
      refine ⟨f₁, n + 1, ?_, ?_⟩
      · rw [hremove, if_pos (by simpa using hcovered)]
        rfl
      · rw [if_pos (by simpa using hcovered)]
        exact h₁
    · next hcovered =>
      refine ⟨f', n, ?_, ?_⟩
      · rw [if_neg (by simpa using hcovered)]
      · rw [if_neg (by simpa using hcovered)]
        exact h
  | load d r => exact ⟨f', n, by rw [hty], h⟩
  | anywhere | branch | nothing => exact ⟨f', n, rfl, h⟩

/-- Going backward through the first part of a block. -/
theorem backward_trims (hb : b ∈ f.order) (hl : f.blockInstrs b = l₁ ++ l₂) {s : State}
    (h : Trims f s.fragment id (dropped f l₂ ++ gone)) (hknown : s.known = expected f l₂)
    (hgone : ∀ i ∈ l₁, i ∉ gone) :
    ∃ s', l₁.reverse.foldlM backwardInstr s = .ok s' ∧
      Trims f s'.fragment id (dropped f (l₁ ++ l₂) ++ gone) := by
  induction l₁ using List.reverseRecOn generalizing l₂ s with
  | nil => exact ⟨s, rfl, h⟩
  | append_singleton l₁ i ih =>
    have hl' : f.blockInstrs b = l₁ ++ i :: l₂ := by simp [hl]
    have hi : i ∈ f.allInstrs := WellFormed.mem_allInstrs hb (by simp [hl'])
    have hg : i ∉ dropped f l₂ ++ gone := by
      rw [List.mem_append, not_or]
      refine ⟨fun hm => ?_, hgone i (by simp)⟩
      obtain ⟨l₃, l₄, rfl, -⟩ := mem_dropped.mp hm
      have hn := (hf.chain b hb).nodup
      rw [hl', List.perm_middle.nodup_iff, List.nodup_cons] at hn
      exact hn.1 (by simp)
    obtain ⟨f', k, n⟩ := s
    obtain rfl : k = expected f l₂ := hknown
    obtain ⟨f₁, n₁, hstep, h₁⟩ := backwardInstr_trims hf ho ht hends h hi hg (expected f l₂) n
    have hdropped : (if isCovered f (expected f l₂) i then i :: (dropped f l₂ ++ gone)
        else dropped f l₂ ++ gone) = dropped f (i :: l₂) ++ gone := by
      rw [dropped]
      split <;> rfl
    rw [hdropped] at h₁
    obtain ⟨s', hs', h'⟩ := ih hl' (s := ⟨f₁, expected f (i :: l₂), n₁⟩) h₁ rfl
      fun j hj => hgone j (by simp [hj])
    refine ⟨s', ?_, ?_⟩
    · rw [List.reverse_append, List.reverse_singleton, List.singleton_append, List.foldlM_cons,
        hstep]
      exact hs'
    · rw [List.append_assoc, List.singleton_append]
      exact h'

theorem backwardBlock_trims (hb : b ∈ f.order) {s : State} (h : Trims f s.fragment id gone)
    (hgone : ∀ i ∈ f.blockInstrs b, i ∉ gone) :
    ∃ s', backwardBlock s b = .ok s' ∧
      Trims f s'.fragment id (dropped f (f.blockInstrs b) ++ gone) := by
  have hlist : (f.blockInstrs b).filter (· ∉ gone) = f.blockInstrs b := by
    rw [List.filter_eq_self]
    intro i hi
    simpa using hgone i hi
  have hback : s.fragment.blockInstrsBackward b = (f.blockInstrs b).reverse := by
    rw [(h.chain b hb).blockInstrsBackward_eq, hlist]
  obtain ⟨s', hs', h'⟩ := backward_trims hf ho ht hends hb (List.append_nil _).symm
    (s := { s with known := [] }) h rfl hgone
  rw [List.append_nil] at h'
  refine ⟨s', ?_, h'⟩
  unfold backwardBlock
  rw [hback]
  exact hs'

/-- Removing stores ends; what is gone are the stores that the rest of their block covers. -/
theorem stores_trims (hu : f.UseLists) : ∃ s gone,
    f.order.foldlM backwardBlock { fragment := f } = .ok s ∧ Trims f s.fragment id gone ∧
      ∀ b ∈ f.order, ∀ l₁ i l₂, f.blockInstrs b = l₁ ++ i :: l₂ →
        (i ∈ gone ↔ isCovered f (expected f l₂) i = true) := by
  have hdropped : ∀ b, ∀ i ∈ dropped f (f.blockInstrs b), i ∈ f.blockInstrs b := by
    intro b i hi
    obtain ⟨l₁, l₂, e, -⟩ := mem_dropped.mp hi
    simp [e]
  have hblocks : ∀ (bs : List BlockId), bs ⊆ f.order → bs.Nodup → ∀ (gone : List InstrId)
      (s : State), Trims f s.fragment id gone → (∀ b ∈ bs, ∀ i ∈ f.blockInstrs b, i ∉ gone) →
        ∃ s' gone', bs.foldlM backwardBlock s = .ok s' ∧ Trims f s'.fragment id gone' ∧
          ∀ i, i ∈ gone' ↔ i ∈ gone ∨ ∃ b ∈ bs, i ∈ dropped f (f.blockInstrs b) := by
    intro bs
    induction bs with
    | nil => exact fun _ _ gone s h _ => ⟨s, gone, rfl, h, by simp⟩
    | cons b bs ih =>
      intro hsub hnodup gone s h hgone
      rw [List.nodup_cons] at hnodup
      have hb : b ∈ f.order := hsub (by simp)
      obtain ⟨s₁, hs₁, h₁⟩ := backwardBlock_trims hf ho ht hends hb h (hgone b (by simp))
      obtain ⟨s', gone', hs', h', hmem⟩ :=
        ih (fun a ha => hsub (List.mem_cons_of_mem _ ha)) hnodup.2
        _ s₁ h₁ (by
          intro a ha i hi hm
          rcases List.mem_append.mp hm with hm | hm
          · have hab := block_unique hf (hsub (List.mem_cons_of_mem _ ha)) hb hi (hdropped b i hm)
            exact hnodup.1 (hab ▸ ha)
          · exact hgone a (List.mem_cons_of_mem _ ha) i hi hm)
      refine ⟨s', gone', ?_, h', fun i => ?_⟩
      · rw [List.foldlM_cons, hs₁]
        exact hs'
      · rw [hmem, List.mem_append, List.exists_mem_cons_iff]
        tauto
  obtain ⟨s, gone, hs, h, hmem⟩ := hblocks f.order (List.Subset.refl _) hf.order_nodup []
    { fragment := f } (trims_self hf hu) (by simp)
  refine ⟨s, gone, hs, h, fun b hb l₁ i l₂ hl => ?_⟩
  rw [hmem, ← mem_dropped_split (hf.chain b hb).nodup hl]
  constructor
  · rintro (hnil | ⟨a, ha, hi⟩)
    · cases hnil
    · obtain rfl := block_unique hf ha hb (hdropped a i hi) (by simp [hl])
      exact hi
  · exact fun hi => .inr ⟨b, hb, hi⟩

end

/-! ### Memories that differ in what is expected -/

variable {σ : Type} {g : Guest σ} {o : Offsets} {n : Nat} {m m' m₁ : Memory σ} {s : Cells}

/-- The byte is written later, and it is not one of a counter. -/
def Loose (o : Offsets) (k : Known) (x : Nat) : Prop :=
  (∃ e ∈ k, e.offset ≤ x ∧ x < e.offset + e.size) ∧ ((x : Int) < o.cycles ∨ o.cycles + 4 ≤ x) ∧
    ((x : Int) < o.instrs ∨ o.instrs + 4 ≤ x)

/-- The memories differ in bytes of the context at most that are written later. -/
structure Close (o : Offsets) (k : Known) (m m' : Memory σ) : Prop where
  locals_eq : m'.locals = m.locals
  rest_eq : m'.world.rest = m.world.rest
  size_eq : m'.world.ctx.size = m.world.ctx.size
  byte_eq : ∀ x, ¬Loose o k x → m'.world.ctx.getD x 0 = m.world.ctx.getD x 0

theorem Close.refl (o : Offsets) (k : Known) (m : Memory σ) : Close o k m m :=
  ⟨rfl, rfl, rfl, fun _ _ => rfl⟩

theorem Close.eq (h : Close o [] m m') : m' = m := by
  have hctx : m'.world.ctx = m.world.ctx := Bytes.ext_getD h.size_eq fun x _ =>
    h.byte_eq x fun ⟨⟨e, he, _⟩, _⟩ => by cases he
  obtain ⟨locals, ⟨ctx, rest⟩⟩ := m
  obtain ⟨locals', ⟨ctx', rest'⟩⟩ := m'
  obtain rfl : locals' = locals := h.locals_eq
  obtain rfl : ctx' = ctx := hctx
  obtain rfl : rest' = rest := h.rest_eq
  rfl

theorem Close.mono (h : Close o k m m') (hk : ∀ e ∈ k, e ∈ k₁) : Close o k₁ m m' where
  locals_eq := h.locals_eq
  rest_eq := h.rest_eq
  size_eq := h.size_eq
  byte_eq x hx := h.byte_eq x fun ⟨⟨e, he, hin⟩, hcounters⟩ => hx ⟨⟨e, hk e he, hin⟩, hcounters⟩

/-- Writing one value to both contexts. -/
theorem Close.set {w : Width} (h : Close o k m m') (u : UInt64)
    (hk : ∀ x, Loose o k x → Loose o k₁ x ∨ 0 ≤ d ∧ d ≤ x ∧ (x : Int) < d + w.bytes) :
    Close o k₁ (withCtx m (m.world.ctx.set d w u)) (withCtx m' (m'.world.ctx.set d w u)) where
  locals_eq := h.locals_eq
  rest_eq := h.rest_eq
  size_eq := by simp [withCtx, h.size_eq]
  byte_eq x hx := by
    change (m'.world.ctx.set d w u).getD x 0 = (m.world.ctx.set d w u).getD x 0
    by_cases hin : 0 ≤ d ∧ d ≤ x ∧ (x : Int) < d + w.bytes
    · exact Context.getD_set_of_inside u hin.1 hin.2.1 hin.2.2 h.size_eq
    · have hsame : m'.world.ctx.getD x 0 = m.world.ctx.getD x 0 := by
        refine h.byte_eq x fun hl => ?_
        rcases hk x hl with hl | hin'
        · exact hx hl
        · exact hin hin'
      by_cases hd : 0 ≤ d
      · have hout : (x : Int) < d ∨ d + w.bytes ≤ x := by omega
        rw [Context.getD_set_of_outside u hout, Context.getD_set_of_outside u hout, hsame]
      · unfold Context.set
        rw [if_pos (by omega), if_pos (by omega), hsame]

/-- A field that is apart from what is expected reads the same. -/
theorem Close.get {w : Width} (h : Close o k m m')
    (hk : ∀ x : Nat, d ≤ x → (x : Int) < d + w.bytes → ¬Loose o k x) :
    m'.world.ctx.get d w = m.world.ctx.get d w :=
  Context.get_congr fun x h₁ h₂ => h.byte_eq x (hk x h₁ h₂)

theorem Close.get32 (h : Close o k m m') {c : Int} (hc : c = o.cycles ∨ c = o.instrs) :
    m'.world.get32 c = m.world.get32 c := by
  refine congrArg UInt64.toUInt32 (h.get fun x h₁ h₂ hl => ?_)
  have h₃ : (x : Int) < c + 4 := h₂
  obtain ⟨-, hcycles, hinstrs⟩ := hl
  rcases hc with rfl | rfl <;> omega

theorem Close.set32 (h : Close o k m m') (c : Int) (u : UInt32) :
    Close o k ⟨m.locals, m.world.set32 c u⟩ ⟨m'.locals, m'.world.set32 c u⟩ :=
  h.set u.toUInt64 fun _ hx => .inl hx

theorem Close.charge (h : Close o k m m') (cycles : UInt32) :
    Close o k ⟨m.locals, m.world.charge o cycles⟩ ⟨m'.locals, m'.world.charge o cycles⟩ := by
  have h₁ := h.set32 o.cycles (m.world.get32 o.cycles - cycles)
  have h₂ := h₁.set32 o.instrs
    ((m.world.set32 o.cycles (m.world.get32 o.cycles - cycles)).get32 o.instrs + 1)
  have hinstrs := h₁.get32 (.inr rfl)
  simp only at hinstrs
  unfold World.charge
  dsimp only
  rw [h.get32 (.inl rfl), hinstrs]
  exact h₂

/-- Two outcomes of an operation with memories that differ in what is written later. -/
inductive Alike (o : Offsets) (k : Known) : Except Fault (Option UInt64 × Memory σ) →
    Except Fault (Option UInt64 × Memory σ) → Prop
  | ok {x : Option UInt64} {m m' : Memory σ} (h : Close o k m m') :
    Alike o k (.ok (x, m)) (.ok (x, m'))
  | fault (e : Fault) : Alike o k (.error e) (.error e)

theorem Alike.refl (o : Offsets) (k : Known) (r : Except Fault (Option UInt64 × Memory σ)) :
    Alike o k r r := by
  cases r with
  | error e => exact .fault e
  | ok r => exact .ok (.refl o k r.2)

section
variable (ht : Typed f) (hi : i ∈ f.allInstrs) (hcovered : isCovered f k i = false)
include ht hi hcovered

/-- An instruction that stays does the same to both memories, as far as that is seen. -/
theorem alike_performed (hg : g.Apart) (h : Close o (expect f i k) m m') :
    Alike o k (performed g o f i s m) (performed g o f i s m') := by
  unfold expect at h
  cases heffect : effect f i with
  | load d r =>
    rw [heffect] at h
    obtain ⟨hop, hr, -, hat⟩ := effect_eq_load heffect
    rw [performed_load hop hr, performed_load hop hr, hat]
    cases hw : Context.width? (f.ty r).bytes with
    | none => exact .fault _
    | some w =>
      have hget : m'.world.ctx.get d w = m.world.ctx.get d w := by
        refine h.get fun x h₁ h₂ hl => ?_
        obtain ⟨⟨e, he, hin⟩, -⟩ := hl
        have := (Known.mem_erase.mp he).2
        rw [Context.bytes_of_width hw] at h₂
        omega
      dsimp only
      rw [hget]
      exact .ok (h.mono fun e he => (Known.mem_erase.mp he).1)
  | store d v =>
    rw [heffect] at h
    simp only [hcovered, Bool.false_eq_true, if_false] at h
    obtain ⟨hop, hv, hd, hat⟩ := effect_eq_store heffect
    obtain ⟨-, hr⟩ := store_stored ht hi hop
    rw [performed_store hop hr hv, performed_store hop hr hv, hat]
    cases hw : Context.width? (f.ty v).bytes with
    | none => exact .fault _
    | some w =>
      refine .ok (h.set _ fun x hl => ?_)
      obtain ⟨⟨e, he, hin⟩, hcounters⟩ := hl
      rcases Known.mem_set.mp he with he | ⟨-, rfl⟩
      · exact .inl ⟨⟨e, (Known.mem_erase.mp he).1, hin⟩, hcounters⟩
      · rw [Context.bytes_of_width hw]
        exact .inr ⟨hd, hin⟩
  | anywhere | branch =>
    rw [heffect] at h
    rw [h.eq]
    exact .refl o k _
  | nothing =>
    rw [heffect] at h
    obtain ⟨-, hcall, haccess⟩ := effect_eq_nothing heffect
    unfold performed
    by_cases hinfo : (f.instr i).op = .sourceInfo
    · rw [hinfo]
      exact .ok (h.charge _)
    · have hm : m' = withCtx m m'.world.ctx := by
        obtain ⟨locals, ⟨ctx, rest⟩⟩ := m
        obtain ⟨locals', ⟨ctx', rest'⟩⟩ := m'
        obtain rfl : locals' = locals := h.locals_eq
        obtain rfl : rest' = rest := h.rest_eq
        rfl
      rw [hm, perform_withCtx hg hcall haccess hinfo]
      cases hperf : perform g o (f.instr i).op (opTy f (f.instr i)) (argTy f (f.instr i) 0)
          (argTy f (f.instr i) 1) (argBits f cells s (f.instr i) 0)
          (argBits f cells s (f.instr i) 1)
          (argBits f cells s (f.instr i) 2) m with
      | error e => exact .fault e
      | ok r =>
        obtain ⟨x, m₁⟩ := r
        have hctx := perform_ctx hg hcall haccess hinfo hperf
        refine .ok ⟨rfl, rfl, ?_, fun x hx => ?_⟩
        · rw [hctx]
          exact h.size_eq
        · rw [hctx]
          exact h.byte_eq x hx

end

/-! ### Side by side -/

/-- Evaluated from the world, the fragment does not come to an access of a size that no field of a
context has. -/
def Sized (g : Guest σ) (o : Offsets) (f : Fragment) (w : World σ) : Prop :=
  ∀ n, ¬Evaluates g o f w (.error (.contextSize n))

/-- The states in which the two fragments are at the same place. -/
structure Past (g : Guest σ) (o : Offsets) (f : Fragment) (gone : List InstrId) (w : World σ)
    (c c' : Config Cells σ) : Prop where
  run : ∃ x, GoesIn (step f cells g o) x (start f (fun _ => 0) w) c
  code_eq : c'.point.code = c.point.code.filter (· ∉ gone)
  blocks_eq : c'.point.blocks = c.point.blocks
  store_eq : c'.store = c.store
  close : Close o (expected f c.point.code) c.memory c'.memory

variable {w : World σ} {blocks : List BlockId}

theorem Past.reached {c c' : Config Cells σ} (h : Past g o f gone w c c') (hw : w.ctx.size = n) :
    Reached g o n f c := by
  obtain ⟨x, hgo⟩ := h.run
  exact (Reached.start hw).goesIn hgo

theorem Past.past_start (h : Trims f f' id gone) :
    Past g o f gone w (start f (fun _ => 0) w) (start f' (fun _ => 0) w) where
  run := ⟨0, .refl _⟩
  code_eq := rfl
  blocks_eq := h.order_eq
  store_eq := rfl
  close := by
    simp only [start, h.localsSize_eq]
    exact .refl _ _ _

/-- Only branches lead to exits. -/
theorem statics_trims (h : Trims f f' id gone) : Exit.statics f' = Exit.statics f :=
  h.thins.statics_eq

/-- A branch that is taken leads to the same block or exit. -/
theorem Past.jump (h : Trims f f' id gone) (hf : WellFormed f) {rest : List InstrId}
    {c' : Config Cells σ} (hp : Past g o f gone w ⟨⟨i :: rest, blocks⟩, s, m⟩ c')
    {t : Option ValueId}
    (hstep : step f cells g o ⟨⟨i :: rest, blocks⟩, s, m⟩ = Meaning.jump f cells o s m t)
    (hstep' : step f' cells g o c' = Meaning.jump f' cells o s m t) :
    Pace (step f cells g o) (step f' cells g o) ahead (Past g o f gone w) (fun r r' => r' = r)
      ⟨⟨i :: rest, blocks⟩, s, m⟩ c' := by
  obtain ⟨x, hrun⟩ := hp.run
  rcases h.thins.jump_cases (o := o) (m := m) hf (s := s) fun _ _ => rfl with
    ⟨r, hstop, hstop'⟩ | ⟨b, -, hgo, hgo'⟩
  · exact .stop (hstep.trans hstop) (hstep'.trans hstop') rfl
  · have hnext := hstep.trans hgo
    exact .both hnext (hstep'.trans hgo')
      ⟨⟨x + 1, hrun.trans (.single hnext)⟩, rfl, rfl, rfl, .refl _ _ _⟩

section
variable (h : Trims f f' id gone) (hf : WellFormed f) (ht : Typed f)
  (hgone : ∀ b ∈ f.order, ∀ l₁ i l₂, f.blockInstrs b = l₁ ++ i :: l₂ →
    (i ∈ gone ↔ isCovered f (expected f l₂) i = true))
  (hg : g.Apart) (hc : Contained g o n f) (hw : w.ctx.size = n) (hsized : Sized g o f w)
include h hf ht hgone hg hc hw hsized

omit h hg in
/-- A store that is gone is passed by the first fragment alone. -/
theorem Past.skip {rest : List InstrId} {c' : Config Cells σ}
    (hp : Past g o f gone w ⟨⟨i :: rest, blocks⟩, s, m⟩ c') (hig : i ∈ gone) :
    ∃ m₁, step f cells g o ⟨⟨i :: rest, blocks⟩, s, m⟩ = .go ⟨⟨rest, blocks⟩, s, m₁⟩ ∧
      Past g o f gone w ⟨⟨rest, blocks⟩, s, m₁⟩ c' := by
  have hreach := hp.reached hw
  obtain ⟨seen, hpath⟩ := hreach.path
  obtain ⟨b, hb, l₁, -, -, -, hl, -⟩ := hpath.located_cons hf
  have hi := hreach.mem_allInstrs hf
  have hcovered := (hgone b hb l₁ i rest hl).mp hig
  obtain ⟨d, v, heffect, hlater⟩ := isCovered_iff.mp hcovered
  obtain ⟨hop, hv, hd, hat⟩ := effect_eq_store heffect
  obtain ⟨-, hr⟩ := store_stored ht hi hop
  have hbranch : (f.instr i).op.isBranch = false := by
    rw [hop]
    rfl
  have hstep := step_instr f cells g o i rest blocks s m
  rw [runInstr_eq, performed_store hop hr hv, hat, hbranch] at hstep
  simp only [Bool.false_eq_true, if_false] at hstep
  obtain ⟨x, hrun⟩ := hp.run
  cases hwidth : Context.width? (f.ty v).bytes with
  | none =>
    rw [hwidth] at hstep
    exact absurd (hrun.ends ⟨0, .stop hstep⟩) (hsized _)
  | some u =>
    rw [hwidth] at hstep
    simp only [keep_none] at hstep
    refine ⟨_, hstep, ⟨x + 1, hrun.trans (.single hstep)⟩, ?_, hp.blocks_eq, hp.store_eq, ?_⟩
    · rw [hp.code_eq, List.filter_cons_of_neg (by simpa using hig)]
    · have hclose := hp.close
      have hexpect : expected f (i :: rest) = expected f rest := by
        change expect f i (expected f rest) = _
        unfold expect
        rw [heffect]
        exact if_pos hcovered
      rw [hexpect] at hclose
      have hbytes := Context.bytes_of_width hwidth
      -- what the store writes is written later, and it is not a counter
      refine ⟨hclose.locals_eq, hclose.rest_eq, ?_, fun x hx => ?_⟩
      · rw [hclose.size_eq]
        exact (Context.size_set _ _ _ _).symm
      · refine (hclose.byte_eq x hx).trans (Context.getD_set_of_outside _ ?_).symm
        by_contra hin
        refine hx ⟨?_, ?_⟩
        · cases hget : (expected f rest).get? d with
          | none =>
            rw [hget] at hlater
            simp only [Option.map_none, Option.getD_none] at hlater
            omega
          | some y =>
            rw [hget] at hlater
            simp only [Option.map_some, Option.getD_some] at hlater
            obtain ⟨e, he, hoffset, rfl⟩ := Known.mem_of_get? hget
            rw [← size_expected he] at hlater
            exact ⟨e, he, by omega, by omega⟩
        · have hopTy := opTy_store hr hv
          obtain ⟨-, hcycles, hinstrs⟩ := hc i rest blocks s m hreach (by rw [hop]; rfl)
            (by rw [hat]; exact hd)
          rw [hat, hopTy] at hcycles hinstrs
          unfold Clear at hcycles hinstrs
          omega

omit hc hsized in
/-- An instruction that stays is run by both fragments. -/
theorem Past.both {rest : List InstrId} {m' : Memory σ}
    (hp : Past g o f gone w ⟨⟨i :: rest, blocks⟩, s, m⟩
      ⟨⟨i :: rest.filter (· ∉ gone), blocks⟩, s, m'⟩) (hig : i ∉ gone) :
    Pace (step f cells g o) (step f' cells g o) ahead (Past g o f gone w) (fun r r' => r' = r)
      ⟨⟨i :: rest, blocks⟩, s, m⟩ ⟨⟨i :: rest.filter (· ∉ gone), blocks⟩, s, m'⟩ := by
  have hreach := hp.reached hw
  obtain ⟨seen, hpath⟩ := hreach.path
  obtain ⟨b, hb, l₁, -, -, -, hl, -⟩ := hpath.located_cons hf
  have hi := hreach.mem_allInstrs hf
  have hcovered : isCovered f (expected f rest) i = false := by
    rw [← Bool.not_eq_true, ← hgone b hb l₁ i rest hl]
    exact hig
  obtain ⟨x, hrun⟩ := hp.run
  have hstep := step_instr f cells g o i rest blocks s m
  have hstep' := step_instr f' cells g o i (rest.filter (· ∉ gone)) blocks s m'
  rw [runInstr_eq] at hstep hstep'
  have hsame : ∀ n v, (f.instr i).arg n = some v → s v = s v := fun _ _ _ => rfl
  rw [h.op_eq i hi, h.thins.argBits_eq hi hig hsame, h.thins.target?_eq hi hig,
    h.thins.performed_eq hi hig hsame] at hstep'
  cases hop : (f.instr i).op.isBranch with
  | true =>
    have hclose := hp.close
    change Close o (expect f i (expected f rest)) m m' at hclose
    unfold expect at hclose
    rw [effect_of_branch hop] at hclose
    obtain rfl := hclose.eq
    simp only [hop, if_true] at hstep hstep'
    cases htaken : isTaken (f.instr i).op (argBits f cells s (f.instr i) 0) with
    | true =>
      simp only [htaken, if_true] at hstep hstep'
      exact hp.jump h hf hstep hstep'
    | false =>
      simp only [htaken, Bool.false_eq_true, if_false] at hstep hstep'
      exact .both hstep hstep' ⟨⟨x + 1, hrun.trans (.single hstep)⟩, rfl, rfl, rfl, .refl _ _ _⟩
  | false =>
    simp only [hop, Bool.false_eq_true, if_false] at hstep hstep'
    have halike := alike_performed (o := o) (s := s) ht hi hcovered hg hp.close
    generalize performed g o f i s m = r at hstep halike
    generalize performed g o f i s m' = r' at hstep' halike
    cases halike with
    | fault e => exact .stop hstep hstep' rfl
    | ok hclose =>
      exact .both hstep hstep' ⟨⟨x + 1, hrun.trans (.single hstep)⟩, rfl, rfl,
        h.thins.keep_eq hi _, hclose⟩

theorem Past.pace (c c' : Config Cells σ) (hp : Past g o f gone w c c') :
    Pace (step f cells g o) (step f' cells g o) ahead (Past g o f gone w) (fun r r' => r' = r)
      c c' := by
  obtain ⟨⟨code, blocks⟩, s, m⟩ := c
  cases code with
  | nil =>
    obtain ⟨⟨code', blocks'⟩, s', m'⟩ := c'
    obtain rfl : code' = [] := hp.code_eq
    obtain rfl : blocks' = blocks := hp.blocks_eq
    obtain rfl : s' = s := hp.store_eq
    obtain rfl : m' = m := hp.close.eq
    obtain ⟨seen, hpath⟩ := (hp.reached hw).path
    obtain ⟨x, hrun⟩ := hp.run
    cases blocks' with
    | nil => exact .stop rfl rfl rfl
    | cons b blocks =>
      have hmem : b ∈ f.order := hpath.blocks_subset hf (by simp)
      have hstep := step_enter f cells g o b blocks s' m'
      exact .both hstep (step_enter f' cells g o b blocks s' m')
        ⟨⟨x + 1, hrun.trans (.single hstep)⟩, h.blockInstrs_eq hmem, rfl, rfl, .refl _ _ _⟩
  | cons i rest =>
    by_cases hig : i ∈ gone
    · obtain ⟨m₁, hstep, hp₁⟩ := hp.skip hf ht hgone hc hw hsized hig
      exact .alone hstep (Nat.lt_succ_self _) hp₁
    · obtain ⟨⟨code', blocks'⟩, s', m'⟩ := c'
      obtain rfl : code' = i :: rest.filter (· ∉ gone) := by
        rw [← List.filter_cons_of_pos (by simpa using hig)]
        exact hp.code_eq
      obtain rfl : blocks' = blocks := hp.blocks_eq
      obtain rfl : s' = s := hp.store_eq
      exact hp.both h hf ht hgone hg hw hig

/-- Without the stores the fragment ends alike, and makes the rest of the guest the same on the
way. -/
theorem stores_meaning : (∀ r, Evaluates g o f w r ↔ Evaluates g o f' w r) ∧
    ∀ rest, (∃ w', Passes g o f w w' ∧ w'.rest = rest) ↔ ∃ w', Passes g o f' w w' ∧
      w'.rest = rest := by
  have hpace := Past.pace h hf ht hgone hg hc hw hsized
  have hstart : Past g o f gone w (start f (fun _ => 0) w) (start f' (fun _ => 0) w) :=
    .past_start h
  obtain ⟨hforth, hback⟩ := simulation (fun _ _ hp => advance_of_pace hpace hp) hstart
  refine ⟨fun r => ⟨fun hr => ?_, fun hr => ?_⟩, fun rest => ⟨?_, ?_⟩⟩
  · obtain ⟨r', hr', rfl⟩ := hforth r hr
    exact hr'
  · obtain ⟨r', hr', rfl⟩ := hback r hr
    exact hr'
  · rintro ⟨w', ⟨x, c, hgo, rfl⟩, rfl⟩
    obtain ⟨y, c', hgo', hp⟩ := goesIn_left hpace hstart hgo
    exact ⟨_, ⟨y, c', hgo', rfl⟩, hp.close.rest_eq⟩
  · rintro ⟨w', ⟨x, c', hgo', rfl⟩, rfl⟩
    obtain ⟨y, c, hgo, hp⟩ := goesIn_right hpace hstart hgo'
    exact ⟨_, ⟨y, c, hgo, rfl⟩, hp.close.rest_eq.symm⟩

end
end Recompiler.Pass.ContextReuse
