import Recompiler.Proofs.IR.Trimming
import Recompiler.Proofs.Pass.Known

/-!
Reuse of loads keeps the meaning of a fragment. At each point of the pass the fragment is a
justified rewriting of the one at the start, and what the pass knows of the context holds wherever
control comes to that point.
-/
namespace Recompiler.Meaning

open IR Fragment Interp Machine

variable {σ : Type} {g : Guest σ} {o : Offsets} {n : Nat} {f f' : Fragment}
  {ρ : ValueId → ValueId} {i j k : InstrId} {b : BlockId} {code seen gone : List InstrId}
  {blocks : List BlockId} {s s₁ s' : Cells} {m m₁ : Memory σ}

/-- A path to an instruction inside a block passes the instruction before. -/
theorem Path.before_in_block (hf : WellFormed f) (hb : b ∈ f.order) {l₁ l₂ : List InstrId}
    (hl : f.blockInstrs b = l₁ ++ i :: j :: l₂) (hp : Path f seen ⟨j :: code, blocks⟩) :
    ∃ seen₁, seen = i :: seen₁ ∧ Path f seen₁ ⟨i :: j :: code, blocks⟩ := by
  have hj : j ∈ f.blockInstrs b := by simp [hl]
  have hl' : f.blockInstrs b = (l₁ ++ [i]) ++ j :: l₂ := by simp [hl]
  have hfirst : ∀ a ∈ f.order, f.blockInstrs a ≠ j :: code := by
    intro a ha e
    obtain rfl : a = b := block_unique hf ha hb (by simp [e]) hj
    have e' : f.blockInstrs a = [] ++ j :: code := e
    obtain ⟨hsplit, -⟩ := split_unique (hf.chain a ha).nodup e' hl'
    simp at hsplit
  generalize hq : (⟨j :: code, blocks⟩ : Point) = q at hp
  cases hp with
  | start => cases hq
  | @enter seen a blocks' hp =>
    have hcode : j :: code = f.blockInstrs a := congrArg Point.code hq
    exact absurd hcode.symm (hfirst a (hp.blocks_subset hf (by simp)))
  | @jump seen code' k blocks' v a hp htarget hv =>
    have hcode : j :: code = f.blockInstrs a := congrArg Point.code hq
    exact absurd hcode.symm (hfirst a (hf.target v a hv))
  | @pass seen code' k blocks' hp hop =>
    cases hq
    obtain ⟨a, ha, l, -, -, -, hcode, -⟩ := hp.located_cons hf
    obtain rfl : a = b := block_unique hf ha hb (by simp [hcode]) hj
    have hcode' : f.blockInstrs a = (l ++ [k]) ++ j :: code := by
      rw [hcode, List.append_cons]
    obtain ⟨hsplit, -⟩ := split_unique (hf.chain a ha).nodup hcode' hl'
    obtain rfl : k = i := by simpa using (List.append_inj' hsplit rfl).2
    exact ⟨seen, rfl, hp⟩

/-- The first way to an instruction does not pass it. -/
theorem Path.not_dominates_self (hf : WellFormed f) (hp : Path f seen ⟨i :: code, blocks⟩) :
    ¬Dominates f i ⟨i :: code, blocks⟩ := by
  intro hdom
  induction hn : seen.length using Nat.strongRecOn generalizing seen with
  | ind n ih =>
    obtain ⟨seen₁, seen₂, code₁, blocks₁, rfl, hp₁⟩ := hp.before (hdom seen hp)
    rw [hp₁.unique hf hp] at hp₁
    exact ih seen₁.length (by simp at hn; omega) hp₁ rfl

/-- What an instruction changes that goes on to the next one of its block. -/
theorem step_inside {s₂ : Cells} {m₂ : Memory σ} {p : Point}
    (h : step f cells g o ⟨⟨i :: code, blocks⟩, s₁, m₁⟩ = .go ⟨p, s₂, m₂⟩) :
    ((f.instr i).op.isBranch = true ∧ s₂ = s₁ ∧ m₂ = m₁) ∨
      (f.instr i).op.isBranch = false ∧ ∃ x, performed g o f i s₁ m₁ = .ok (x, m₂) ∧
        s₂ = keep f cells (f.instr i) s₁ x := by
  generalize hc : (⟨p, s₂, m₂⟩ : Config Cells σ) = c at h
  cases moves_of_step h with
  | untaken hop =>
    cases hc
    exact .inl ⟨hop, rfl, rfl⟩
  | jump hop =>
    cases hc
    exact .inl ⟨hop, rfl, rfl⟩
  | perform hop hperf =>
    cases hc
    exact .inr ⟨hop, _, hperf, rfl⟩

/-- In front of an instruction, the results defined by then agree if they do behind it. -/
theorem Agrees.before (hf : WellFormed f) (hb : b ∈ f.order) {l₁ l₂ : List InstrId}
    (hl : f.blockInstrs b = l₁ ++ i :: j :: l₂)
    (hp : Path f seen ⟨i :: j :: code, blocks⟩)
    (hstep : step f cells g o ⟨⟨i :: j :: code, blocks⟩, s₁, m₁⟩ = .go ⟨⟨j :: code, blocks⟩, s, m⟩)
    (ha : Agrees f f' ρ ⟨j :: code, blocks⟩ s s') :
    Agrees f f' ρ ⟨i :: j :: code, blocks⟩ s₁ s' := by
  have hi : i ∈ f.allInstrs := WellFormed.mem_allInstrs hb (by simp [hl])
  intro k hk v hv hdom
  have hki : k ≠ i := by
    rintro rfl
    exact hp.not_dominates_self hf hdom
  have hcell : s v = s₁ v := by
    rcases step_inside hstep with ⟨-, rfl, -⟩ | ⟨-, x, -, rfl⟩
    · rfl
    · exact keep_of_ne (fun e => hki (hf.result_inj hk hi hv e)) x
  rw [← hcell]
  refine ha k hk v hv fun seen hp => ?_
  obtain ⟨seen₁, rfl, hp₁⟩ := hp.before_in_block hf hb hl
  exact List.mem_cons_of_mem _ (hdom seen₁ hp₁)

theorem precedes_in_block (hf : WellFormed f) (hb : b ∈ f.order) {l₁ l₂ : List InstrId}
    (hl : f.blockInstrs b = l₁ ++ i :: j :: l₂) : Precedes f i j := by
  intro a ha l₃ l₄ e
  obtain rfl : a = b := block_unique hf ha hb (by simp [e]) (by simp [hl] : j ∈ f.blockInstrs b)
  have hl' : f.blockInstrs a = (l₁ ++ [i]) ++ j :: l₂ := by simp [hl]
  obtain ⟨rfl, -⟩ := split_unique (hf.chain a ha).nodup e hl'
  exact .inl (by simp)

theorem accessAt_eq (h : Rewrites f f' ρ gone) (hf : WellFormed f) (ho : Ordered f)
    (hi : i ∈ f.allInstrs) (hg : i ∉ gone) (ha : Agrees f f' ρ ⟨i :: code, blocks⟩ s s') :
    accessAt f' s' i = accessAt f s i := by
  unfold accessAt
  rw [h.argBits_eq hf ho hi hg ha]

/-! ### Fragments with the same values -/

theorem bits_same (h : SameValues f f') (s : Cells) (v : ValueId) :
    bits f' cells s v = bits f cells s v := by
  unfold bits
  rw [h.origin_eq]

theorem agrees_same (h : SameValues f f') {p : Point} :
    Agrees f f' ρ p s s' ↔ Agrees f f ρ p s s' := by
  unfold Agrees
  simp only [bits_same h]

theorem justified_same (h : SameValues f f') {I : Config Cells σ → Prop}
    (hJ : Justified g o I f f ρ) : Justified g o I f f' ρ :=
  hJ.congr fun _ _ _ _ => h.origin_eq _

end Recompiler.Meaning

namespace Recompiler.Pass.ContextReuse

open IR Fragment Interp Meaning

variable {f f' : Fragment} {ρ : ValueId → ValueId} {gone done : List InstrId} {i j : InstrId}
  {b : BlockId} {l₁ l₂ : List InstrId} {k k₁ : Known} {d : Int} {r v w : ValueId}

/-! ### Where values come from -/

/-- A load gives the value. -/
def Loads (f : Fragment) (v : ValueId) : Prop :=
  ∃ i ∈ f.allInstrs, (f.instr i).op = .loadContext ∧ (f.instr i).result = some v

/-- A store puts the value in the context. -/
def Stores (f : Fragment) (v : ValueId) : Prop :=
  ∃ i ∈ f.allInstrs, (f.instr i).op = .storeContext ∧ (f.instr i).arg 1 = some v

/-- What is put for `v` is `v`, or `v` is loaded; a constant that is put for it was stored. -/
def Sourced (f : Fragment) (v w : ValueId) : Prop :=
  w = v ∨ Loads f v ∧ (f.isConstant w = true → Stores f w)

/-- Constant offsets leave room behind them for what is accessed: those that the accesses name, and
those that are stored where an access names what is loaded. -/
def OffsetsFit (f : Fragment) : Prop :=
  ∀ i ∈ f.allInstrs, (f.instr i).op.isAccess = true → ∀ a, (f.instr i).arg 0 = some a →
    ∀ v x, (f.value v).origin = .constant (.i32 x) → v = a ∨ Loads f a ∧ Stores f v →
      x.toInt32.toInt + (opTy f (f.instr i)).bytes < 2 ^ 31

/-! ### What is known -/

/-- The bytes of the entry hold its value, and the counters lie elsewhere. -/
structure Entry.Holds (f : Fragment) (o : Offsets) (s : Cells) (ctx : Context) (e : Entry) :
    Prop where
  value : ∃ w, Context.width? e.size = some w ∧ ctx.get e.offset w = bits f cells s e.value
  cycles : Clear e.offset e.size o.cycles
  instrs : Clear e.offset e.size o.instrs

/-- The entries hold wherever control comes to `j`, in every state of values that agrees with the
one there. -/
def Sound (f : Fragment) (ρ : ValueId → ValueId) (k : Known) (j : InstrId) : Prop :=
  ∀ (σ : Type) (g : Guest σ) (o : Offsets) (n : Nat), g.Apart → Contained g o n f →
    ∀ code blocks s s' m, Reached g o n f ⟨⟨j :: code, blocks⟩, s, m⟩ →
      Agrees f f ρ ⟨j :: code, blocks⟩ s s' → ∀ e ∈ k, e.Holds f o s' m.world.ctx

/-- What is known in front of `j`: entries of the size of their values, which are constants or
defined by then. -/
structure Table (f : Fragment) (ρ : ValueId → ValueId) (gone : List InstrId) (k : Known)
    (j : InstrId) : Prop where
  lt : ∀ e ∈ k, e.value.index < f.values.size
  size_eq : ∀ e ∈ k, e.size = (f.ty e.value).bytes ∧ e.size ≠ 0
  ready : ∀ e ∈ k, f.isConstant e.value = true ∨ ∃ i ∈ f.allInstrs, i ∉ gone ∧
    (f.instr i).result = some e.value ∧ Precedes f i j
  stored : ∀ e ∈ k, f.isConstant e.value = true → Stores f e.value
  sound : Sound f ρ k j

theorem table_nil : Table f ρ gone [] j :=
  ⟨by simp, by simp, by simp, by simp, fun _ _ _ _ _ _ _ _ _ _ _ _ _ e he => by cases he⟩

/-- The fragment of the pass that has visited the instructions of `done`: a justified rewriting
without some of the loads. -/
structure Reuses (f : Fragment) (done : List InstrId) (f' : Fragment) (ρ : ValueId → ValueId)
    (gone : List InstrId) : Prop where
  rewrites : Rewrites f f' ρ gone
  values : SameValues f f'
  locals_eq : f'.locals = f.locals
  edges_eq : ∀ b, (f'.block b).edges = (f.block b).edges
  loads : ∀ i ∈ gone, (f.instr i).op = .loadContext
  justified : ∀ (σ : Type) (g : Guest σ) (o : Offsets) (n : Nat), g.Apart → Contained g o n f →
    Justified g o (Reached g o n f) f f ρ
  free : ∀ i ∈ f.allInstrs, ∀ v, (f.instr i).result = some v → i ∉ done → ρ v = v
  sourced : ∀ v, Sourced f v (ρ v)

theorem reuses_start (hf : WellFormed f) (hu : f.UseLists) : Reuses f [] f id [] where
  rewrites := rewrites_self hf hu
  values := .refl f
  locals_eq := rfl
  edges_eq _ := rfl
  loads _ h := by cases h
  justified _ _ _ _ _ _ := justified_id
  free _ _ _ _ _ := rfl
  sourced _ := .inl rfl

theorem Reuses.mono {done' : List InstrId} (h : Reuses f done f' ρ gone) (hsub : done ⊆ done') :
    Reuses f done' f' ρ gone :=
  { h with free := fun i hi v hv hd => h.free i hi v hv fun hm => hd (hsub hm) }

theorem Reuses.trims (h : Reuses f done f' ρ gone) : Trims f f' ρ gone :=
  h.rewrites.trims h.values h.locals_eq h.edges_eq fun i hi => by rw [h.loads i hi]; rfl

theorem Reuses.not_gone (h : Reuses f done f' ρ gone) (hi : i ∈ f.allInstrs) (hd : i ∉ done) :
    i ∉ gone := h.rewrites.not_gone_of fun v hv => h.free i hi v hv hd

/-- The constants that the pass puts for offsets leave room as well. -/
theorem Reuses.endsFit (h : Reuses f done f' ρ gone) (hf : WellFormed f) (ho : Ordered f)
    (hfit : OffsetsFit f) : EndsFit f' := by
  intro i hi haccess d hd
  obtain ⟨hi, hg⟩ := h.trims.mem_allInstrs.mp hi
  obtain ⟨-, w, x, hw, hx, rfl⟩ := contextOffset_constant hd
  rw [h.rewrites.op_eq i hi] at haccess
  rw [h.rewrites.arg_eq i hi hg] at hw
  obtain ⟨a, ha, rfl⟩ := Option.map_eq_some_iff.mp hw
  rw [h.values.origin_eq] at hx
  rw [h.rewrites.opTy_eq hf ho hi hg]
  refine hfit i hi haccess a ha (ρ a) x hx ((h.sourced a).imp id fun ⟨hload, hstored⟩ => ?_)
  exact ⟨hload, hstored ((Value.isConstant_iff _).mpr ⟨_, hx⟩)⟩

/-- What stands in the table does not come from the instruction in front of it. -/
theorem Table.ne_result (h : Table f ρ gone k i) (hf : WellFormed f) (hi : i ∈ f.allInstrs)
    (hr : (f.instr i).result = some r) : ∀ e ∈ k, e.value ≠ r := by
  rintro e he rfl
  rcases h.ready e he with hconst | ⟨x, hx, -, hres, hxi⟩
  · rw [isConstant, Value.isConstant, (hf.result i hi _ hr).2] at hconst
    cases hconst
  · exact hxi.ne hf hi (hf.result_inj hx hi hres hr)

theorem bits_isSome_of_bytes {c : Constant} (h : c.ty.bytes ≠ 0) : c.bits?.isSome = true := by
  cases c with
  | str | blk => exact absurd rfl h
  | _ => rfl

/-! ### From one instruction to the next -/

section
variable {σ : Type} {g : Guest σ} {o : Offsets} {code : List InstrId} {blocks : List BlockId}
  {s₁ s₂ : Cells} {m₁ m₂ : Memory σ} {p : Point}

theorem load_inside (hop : (f.instr i).op = .loadContext) (hr : (f.instr i).result = some r)
    (h : step f cells g o ⟨⟨i :: code, blocks⟩, s₁, m₁⟩ = .go ⟨p, s₂, m₂⟩) :
    ∃ w, Context.width? (f.ty r).bytes = some w ∧ m₂ = m₁ ∧
      s₂ r = m₁.world.ctx.get (accessAt f s₁ i) w := by
  rcases step_inside h with ⟨hbranch, -, -⟩ | ⟨-, x, hperf, rfl⟩
  · rw [hop] at hbranch
    cases hbranch
  · rw [performed_load hop hr] at hperf
    cases hw : Context.width? (f.ty r).bytes with
    | none =>
      rw [hw] at hperf
      cases hperf
    | some w =>
      rw [hw] at hperf
      cases hperf
      refine ⟨w, rfl, rfl, ?_⟩
      simp only [keep_eq hr, if_true]
      exact fit_get hw _ _

theorem store_inside (hop : (f.instr i).op = .storeContext) (hr : (f.instr i).result = none)
    (hv : (f.instr i).arg 1 = some v)
    (h : step f cells g o ⟨⟨i :: code, blocks⟩, s₁, m₁⟩ = .go ⟨p, s₂, m₂⟩) :
    ∃ w, Context.width? (f.ty v).bytes = some w ∧ m₂ =
      withCtx m₁ (m₁.world.ctx.set (accessAt f s₁ i) w (bits f cells s₁ v)) := by
  rcases step_inside h with ⟨hbranch, -, -⟩ | ⟨-, x, hperf, -⟩
  · rw [hop] at hbranch
    cases hbranch
  · rw [performed_store hop hr hv, argBits, hv] at hperf
    cases hw : Context.width? (f.ty v).bytes with
    | none =>
      rw [hw] at hperf
      cases hperf
    | some w =>
      rw [hw] at hperf
      cases hperf
      exact ⟨w, rfl, rfl⟩

end

section
variable (hf : WellFormed f) (hb : b ∈ f.order) (hl : f.blockInstrs b = l₁ ++ i :: j :: l₂)
include hf hb hl

/-- Entries hold in front of `j` if performing `i` makes them hold. -/
theorem Sound.next (h : Sound f ρ k i)
    (hnext : ∀ (σ : Type) (g : Guest σ) (o : Offsets) (n : Nat), g.Apart → Contained g o n f →
      ∀ code blocks s₁ m₁ s₂ m₂ s', Reached g o n f ⟨⟨i :: code, blocks⟩, s₁, m₁⟩ →
        step f cells g o ⟨⟨i :: code, blocks⟩, s₁, m₁⟩ = .go ⟨⟨code, blocks⟩, s₂, m₂⟩ →
        Agrees f f ρ ⟨i :: code, blocks⟩ s₁ s' →
        (∀ v, (f.instr i).result = some v → bits f cells s' (ρ v) = s₂ v) →
        (∀ e ∈ k, e.Holds f o s' m₁.world.ctx) → ∀ e ∈ k₁, e.Holds f o s' m₂.world.ctx) :
    Sound f ρ k₁ j := by
  intro σ g o n hg hc code blocks s s' m hr ha
  obtain ⟨s₁, m₁, hr₁, hstep⟩ := hr.before hf hb hl
  obtain ⟨seen, hp⟩ := hr₁.path
  have ha₁ := ha.before hf hb hl hp hstep
  refine hnext σ g o n hg hc (j :: code) blocks s₁ m₁ s m s' hr₁ hstep ha₁ (fun v hv => ?_)
    (h σ g o n hg hc _ _ _ _ _ hr₁ ha₁)
  exact ha i (WellFormed.mem_allInstrs hb (by simp [hl])) v hv
    ((precedes_in_block hf hb hl).dominates hf code blocks)

theorem Table.ready_next (ho : Ordered f) (h : Table f ρ gone k i) :
    ∀ e ∈ k, f.isConstant e.value = true ∨ ∃ i ∈ f.allInstrs, i ∉ gone ∧
      (f.instr i).result = some e.value ∧ Precedes f i j := by
  intro e he
  rcases h.ready e he with hconst | ⟨x, hx, hg, hres, hxi⟩
  · exact .inl hconst
  · exact .inr ⟨x, hx, hg, hres, hxi.trans hf ho (precedes_in_block hf hb hl)⟩

/-- Operations that leave the bytes of the entries alone. -/
theorem Table.keep (ho : Ordered f) (h : Table f ρ gone k i) (hcall : (f.instr i).op.isCall = false)
    (haccess : (f.instr i).op.isAccess = false) : Table f ρ gone k j := by
  refine ⟨h.lt, h.size_eq, h.ready_next hf hb hl ho, h.stored, Sound.next hf hb hl h.sound ?_⟩
  intro σ g o n hg hc code blocks s₁ m₁ s₂ m₂ s' hr hstep ha hres hk e he
  have hold := hk e he
  obtain ⟨⟨w, hw, hget⟩, hcycles, hinstrs⟩ := hold
  refine ⟨⟨w, hw, ?_⟩, hcycles, hinstrs⟩
  rw [← hget]
  rcases step_inside hstep with ⟨-, -, rfl⟩ | ⟨-, x, hperf, -⟩
  · rfl
  · by_cases hinfo : (f.instr i).op = .sourceInfo
    · unfold performed at hperf
      rw [hinfo] at hperf
      cases hperf
      rw [← Context.bytes_of_width hw] at hcycles hinstrs
      exact (Context.get_set32_of_clear _ hinstrs).trans (Context.get_set32_of_clear _ hcycles)
    · rw [perform_ctx hg hcall haccess hinfo hperf]

/-- After a load its result is known. -/
theorem Table.load (ho : Ordered f) (h : Table f ρ gone k i) (hreuse : Reuses f done f' ρ gone)
    (hdone : i ∉ done) (heffect : effect f' i = .load d r) :
    Table f ρ gone (k.set d (f.ty r).bytes r) j := by
  have hi : i ∈ f.allInstrs := WellFormed.mem_allInstrs hb (by simp [hl])
  have hg := hreuse.not_gone hi hdone
  have hrw := hreuse.rewrites
  obtain ⟨hop, hr, hd, hat⟩ := effect_eq_load heffect
  rw [hrw.op_eq i hi] at hop
  rw [hrw.result_eq i hi] at hr
  have hold : ∀ e ∈ k.set d (f.ty r).bytes r, e ∈ k ∨
      (f.ty r).bytes ≠ 0 ∧ e = ⟨d, (f.ty r).bytes, r⟩ := by
    intro e he
    rcases Known.mem_set.mp he with he | he
    · exact .inl (Known.mem_erase.mp he).1
    · exact .inr he
  refine ⟨fun e he => ?_, fun e he => ?_, fun e he => ?_, fun e he hconst => ?_,
    Sound.next hf hb hl h.sound ?_⟩
  · rcases hold e he with he | ⟨-, rfl⟩
    · exact h.lt e he
    · exact (hf.result i hi r hr).1
  · rcases hold e he with he | ⟨hn, rfl⟩
    · exact h.size_eq e he
    · exact ⟨rfl, hn⟩
  · rcases hold e he with he | ⟨-, rfl⟩
    · exact h.ready_next hf hb hl ho e he
    · exact .inr ⟨i, hi, hg, hr, precedes_in_block hf hb hl⟩
  · rcases hold e he with he | ⟨-, rfl⟩
    · exact h.stored e he hconst
    · rw [isConstant, Value.isConstant, (hf.result i hi r hr).2] at hconst
      cases hconst
  · intro σ g o n hapart hc code blocks s₁ m₁ s₂ m₂ s' hreach hstep ha hres hk e he
    -- the load gives what is in the context
    have haccess := accessAt_eq hrw hf ho hi hg ((agrees_same hreuse.values).mpr ha)
    rw [hat] at haccess
    obtain ⟨w, hw, rfl, hs₂⟩ := load_inside hop hr hstep
    rw [← haccess] at hs₂
    rcases hold e he with he | ⟨-, rfl⟩
    · exact hk e he
    · have hopTy : opTy f (f.instr i) = f.ty r := by rw [opTy, hr]
      have hbounds := hc i code blocks s₁ m₂ hreach (by rw [hop]; rfl) (by omega)
      rw [← haccess, hopTy] at hbounds
      refine ⟨⟨w, hw, ?_⟩, hbounds.2.1, hbounds.2.2⟩
      rw [← hs₂, ← hres r hr, hreuse.free i hi r hr hdone]

/-- After a store what was stored is known. -/
theorem Table.store (ho : Ordered f) (ht : Typed f) (h : Table f ρ gone k i)
    (hreuse : Reuses f done f' ρ gone) (hdone : i ∉ done) (heffect : effect f' i = .store d v) :
    Table f ρ gone (k.set d (f.ty v).bytes v) j := by
  have hi : i ∈ f.allInstrs := WellFormed.mem_allInstrs hb (by simp [hl])
  have hg := hreuse.not_gone hi hdone
  have hrw := hreuse.rewrites
  obtain ⟨hop, hv', hd, hat⟩ := effect_eq_store heffect
  have hlt : v.index < f.values.size := by
    rw [← hreuse.values.size_eq]
    exact hrw.uses.arg_lt hv'
  rw [hrw.op_eq i hi] at hop
  rw [hrw.arg_eq i hi hg] at hv'
  obtain ⟨u, hu, rfl⟩ := Option.map_eq_some_iff.mp hv'
  have hty : f.ty (ρ u) = f.ty u := (hreuse.values.ty_eq _).symm.trans (hrw.arg_ty hf ho hi hu)
  obtain ⟨-, hresult⟩ := store_stored ht hi hop
  have hold : ∀ e ∈ k.set d (f.ty (ρ u)).bytes (ρ u),
      (e ∈ k ∧ (e.offset + e.size ≤ d ∨ d + (f.ty (ρ u)).bytes ≤ e.offset)) ∨
        (f.ty (ρ u)).bytes ≠ 0 ∧ e = ⟨d, (f.ty (ρ u)).bytes, ρ u⟩ := by
    intro e he
    rcases Known.mem_set.mp he with he | he
    · exact .inl (Known.mem_erase.mp he)
    · exact .inr he
  refine ⟨fun e he => ?_, fun e he => ?_, fun e he => ?_, fun e he hconst => ?_,
    Sound.next hf hb hl h.sound ?_⟩
  · rcases hold e he with ⟨he, -⟩ | ⟨-, rfl⟩
    · exact h.lt e he
    · exact hlt
  · rcases hold e he with ⟨he, -⟩ | ⟨hn, rfl⟩
    · exact h.size_eq e he
    · exact ⟨rfl, hn⟩
  · rcases hold e he with ⟨he, -⟩ | ⟨-, rfl⟩
    · exact h.ready_next hf hb hl ho e he
    · rcases hreuse.trims.arg_cases hf ho hi hu
        with ⟨hconst, e⟩ | ⟨-, -, ⟨c, hc, -⟩ | ⟨x, hx, hxg, hres, hxi⟩⟩
      · exact .inl (e.symm ▸ hconst)
      · rw [hreuse.values.origin_eq] at hc
        exact .inl ((Value.isConstant_iff _).mpr ⟨c, hc⟩)
      · exact .inr ⟨x, hx, hxg, hres, hxi.trans hf ho (precedes_in_block hf hb hl)⟩
  · rcases hold e he with ⟨he, -⟩ | ⟨-, rfl⟩
    · exact h.stored e he hconst
    · rcases hreuse.sourced u with heq | ⟨-, hstored⟩
      · exact ⟨i, hi, hop, by rw [heq]; exact hu⟩
      · exact hstored hconst
  · intro σ g o n hapart hc code blocks s₁ m₁ s₂ m₂ s' hreach hstep ha hres hk e he
    have ha' := (agrees_same hreuse.values).mpr ha
    have haccess := accessAt_eq hrw hf ho hi hg ha'
    rw [hat] at haccess
    -- what is stored has the bits of the value that stands for it
    have hbits := hrw.arg_bits hf ho hi ha' hu
    rw [bits_same hreuse.values] at hbits
    obtain ⟨w, hw, rfl⟩ := store_inside hop hresult hu hstep
    have hbytes := Context.bytes_of_width hw
    have hbounds := hc i code blocks s₁ m₁ hreach (by rw [hop]; rfl) (by omega)
    rw [← haccess, opTy_store hresult hu] at hbounds
    rw [← haccess, ← hbits]
    rcases hold e he with ⟨he, hdisjoint⟩ | ⟨-, rfl⟩
    · obtain ⟨⟨x, hx, hget⟩, hcycles, hinstrs⟩ := hk e he
      refine ⟨⟨x, hx, ?_⟩, hcycles, hinstrs⟩
      rw [← hget]
      refine Context.get_set_of_disjoint _ ?_
      rw [Context.bytes_of_width hx, hbytes, ← hty]
      exact hdisjoint
    · refine ⟨⟨w, by rw [hty]; exact hw, ?_⟩, by rw [hty]; exact hbounds.2.1,
        by rw [hty]; exact hbounds.2.2⟩
      refine Context.get_set_same hd ?_ ?_
      · rw [hbytes, hreach.size hapart]
        exact hbounds.1
      · rw [hbits]
        exact hreach.toNat_bits_lt hf ht hapart (hf.arg_lt i hi 1 u hu) hw

end

/-! ### A load whose value is known -/

section
variable (hf : WellFormed f) (ho : Ordered f) (hi : i ∈ f.allInstrs)
  (h : Table f ρ gone k i) (hreuse : Reuses f done f' ρ gone) (hdone : i ∉ done)
  (heffect : effect f' i = .load d r) {e : Entry} (he : e ∈ k) (hoffset : e.offset = d)
  (hty : f.ty e.value = f.ty r)
include hf ho hi h hreuse hdone heffect he hoffset hty

omit ho hi hdone heffect hoffset in
theorem Table.stands : Stands f f' gone i r e.value := by
  have hlt := h.lt e he
  rcases h.ready e he with hconst | ⟨x, hx, hg, hres, hxi⟩
  · obtain ⟨c, hc⟩ := (Value.isConstant_iff _).mp hconst
    refine .constant ((hreuse.values.origin_eq _).trans hc) (bits_isSome_of_bytes ?_) ?_
      ((hreuse.values.ty_eq _).trans hty)
    · rw [← hf.constant_ty _ hlt c hc]
      exact (h.size_eq e he).1 ▸ (h.size_eq e he).2
    · rw [hreuse.values.size_eq]
      exact hlt
  · exact .result hx hg hres hxi hty

/-- The load gives the bits of the known value. -/
theorem Table.justifies {σ : Type} {g : Guest σ} {o : Offsets} {n : Nat} (hg : g.Apart)
    (hc : Contained g o n f) : Justifies g o (Reached g o n f) f f' ρ i r e.value := by
  intro code blocks s s' m hreach ha
  obtain ⟨hop, hr, -, hat⟩ := effect_eq_load heffect
  rw [hreuse.rewrites.op_eq i hi] at hop
  rw [hreuse.rewrites.result_eq i hi] at hr
  obtain ⟨⟨w, hw, hget⟩, -, -⟩ := h.sound σ g o n hg hc code blocks s s' m hreach
    ((agrees_same hreuse.values).mp ha) e he
  have haccess := accessAt_eq hreuse.rewrites hf ho hi (hreuse.not_gone hi hdone) ha
  rw [hat, ← hoffset] at haccess
  rw [(h.size_eq e he).1, hty] at hw
  refine ⟨by rw [hop]; rfl, m.world.ctx.get e.offset w, ?_, ?_⟩
  · rw [performed_load hop hr, hw, ← haccess]
  · rw [fit_get hw, hget, bits_same hreuse.values]

/-- The load is taken out, and the known value put for its result. -/
theorem Table.reuse : ∃ f₁ f₂, f'.replaceUses r e.value = .ok f₁ ∧ f₁.removeInstr i = .ok f₂ ∧
    Reuses f (i :: done) f₂ (fun v => subst r e.value (ρ v)) (i :: gone) := by
  obtain ⟨hop, hr, -, -⟩ := effect_eq_load heffect
  have hrw := hreuse.rewrites
  rw [hrw.op_eq i hi] at hop
  rw [hrw.result_eq i hi] at hr
  have hρ : ρ r = r := hreuse.free i hi r hr hdone
  have hne : e.value ≠ r := h.ne_result hf hi hr e he
  have hmoved : ∀ v, subst r e.value v ≠ r := by
    intro v
    unfold subst
    split
    · exact hne
    · assumption
  obtain ⟨f₁, hreplace, hrep, hrw₁⟩ := hrw.replace hf ho hi hr hρ
    (h.stands hf hreuse he hty) hne
  obtain ⟨f₂, hremove, ⟨_, _, _, hrem⟩, hrw₂⟩ := hrw₁.remove hf hi (hreuse.not_gone hi hdone) hr
    (hmoved _) (fun _ _ _ _ => hmoved _) hrep.unused
  have hvalues := hreuse.values.trans (hrep.values.trans hrem.values)
  refine ⟨f₁, f₂, hreplace, hremove, hrw₂, hvalues, ?_, fun b => ?_, fun x hx => ?_, ?_, ?_,
    fun v => ?_⟩
  · exact hrem.locals_eq.trans (hrep.frame.locals_eq.trans hreuse.locals_eq)
  · rw [hrem.edges_eq, block, hrep.frame.blocks_eq]
    exact hreuse.edges_eq b
  · rcases List.mem_cons.mp hx with rfl | hx
    · exact hop
    · exact hreuse.loads x hx
  · intro σ g o n hg hc
    have hJ := (justified_same hreuse.values (hreuse.justified σ g o n hg hc)).subst hf hrw hi hr hρ
      hne (h.justifies hf ho hi hreuse hdone heffect he hoffset hty hg hc)
    exact hJ.congr fun x _ u _ => (hreuse.values.origin_eq _).symm
  · intro x hx u hu hxd
    rw [List.mem_cons, not_or] at hxd
    have hur : u ≠ r := by
      rintro rfl
      exact hxd.1 (hf.result_inj hx hi hu hr)
    rw [hreuse.free x hx u hu hxd.2, subst, if_neg hur]
  · unfold subst
    split
    · next hv =>
      -- `v` is the result of this load, or of one whose result was put for it
      refine .inr ⟨?_, h.stored e he⟩
      rcases hreuse.sourced v with heq | ⟨hload, -⟩
      · exact ⟨i, hi, hop, by rw [← heq, hv]; exact hr⟩
      · exact hload
    · exact hreuse.sourced v

omit hdone he hoffset hty in
/-- What was known in front of the load is known behind it. -/
theorem Table.pass_reuse (hb : b ∈ f.order) (hl : f.blockInstrs b = l₁ ++ i :: j :: l₂) :
    Table f (fun v => subst r e.value (ρ v)) (i :: gone) k j := by
  obtain ⟨hop, hr, -, -⟩ := effect_eq_load heffect
  rw [hreuse.rewrites.op_eq i hi] at hop
  rw [hreuse.rewrites.result_eq i hi] at hr
  refine ⟨h.lt, h.size_eq, fun x hx => ?_, h.stored, ?_⟩
  · rcases h.ready x hx with hconst | ⟨y, hy, hg, hres, hyi⟩
    · exact .inl hconst
    · refine .inr ⟨y, hy, ?_, hres, hyi.trans hf ho (precedes_in_block hf hb hl)⟩
      rw [List.mem_cons, not_or]
      exact ⟨hyi.ne hf hi, hg⟩
  · intro σ g o n hg hc code blocks s s' m hreach ha x hx
    -- a cell for the result with the bits of the known value makes up for the substitution
    have hbits := bits_subst (hf.result i hi r hr).2 e.value s'
    have ha' : Agrees f f ρ ⟨j :: code, blocks⟩ s
        (fun u => if u = r then bits f cells s' e.value else s' u) := by
      intro y hy u hu hdom
      rw [hbits]
      exact ha y hy u hu hdom
    obtain ⟨s₁, m₁, hr₁, hstep⟩ := hreach.before hf hb hl
    obtain ⟨seen, hp⟩ := hr₁.path
    obtain ⟨-, -, rfl, -⟩ := load_inside hop hr hstep
    obtain ⟨⟨w, hw, hget⟩, hcycles, hinstrs⟩ := h.sound σ g o n hg hc _ _ _ _ _ hr₁
      (ha'.before hf hb hl hp hstep) x hx
    refine ⟨⟨w, hw, ?_⟩, hcycles, hinstrs⟩
    rw [hget, hbits, subst, if_neg (h.ne_result hf hi hr x hx)]

end

/-! ### The pass -/

section
variable (hf : WellFormed f) (ho : Ordered f) (ht : Typed f) (hfit : OffsetsFit f)
include hf ho ht hfit

theorem forwardInstr_reuses (hb : b ∈ f.order) (hl : f.blockInstrs b = l₁ ++ i :: l₂)
    (h : Table f ρ gone k i) (hreuse : Reuses f done f' ρ gone) (hdone : i ∉ done) (n : Nat) :
    ∃ f₁ ρ₁ gone₁ k₁ n₁, forwardInstr ⟨f', k, n⟩ i = .ok ⟨f₁, k₁, n₁⟩ ∧
      Reuses f (i :: done) f₁ ρ₁ gone₁ ∧ ∀ j l₃, l₂ = j :: l₃ → Table f ρ₁ gone₁ k₁ j := by
  have hi : i ∈ f.allInstrs := WellFormed.mem_allInstrs hb (by simp [hl])
  have hg := hreuse.not_gone hi hdone
  have htrims := hreuse.trims
  have hnext : Reuses f (i :: done) f' ρ gone := hreuse.mono (by simp)
  have hop := hreuse.rewrites.op_eq i hi
  rw [forwardInstr_eq (htrims.wellFormed hf) (htrims.typed hf ho ht)
    (htrims.mem_allInstrs.mpr ⟨hi, hg⟩) (hreuse.endsFit hf ho hfit)]
  cases heffect : effect f' i with
  | load d r =>
    dsimp only
    split
    · next v hv =>
      obtain ⟨hget, hty⟩ := Option.filter_eq_some_iff.mp hv
      obtain ⟨e, he, hoffset, rfl⟩ := Known.mem_of_get? hget
      have hty : f.ty e.value = f.ty r := by
        rw [beq_iff_eq] at hty
        exact (hreuse.values.ty_eq _).symm.trans (hty.trans (hreuse.values.ty_eq _))
      obtain ⟨f₁, f₂, hreplace, hremove, hreuse'⟩ :=
        h.reuse hf ho hi hreuse hdone heffect he hoffset hty
      refine ⟨f₂, _, _, k, n + 1, ?_, hreuse', ?_⟩
      · rw [hreplace]
        simp only [bind, Except.bind, hremove]
        rfl
      · rintro j l₃ rfl
        exact h.pass_reuse hf ho hi hreuse heffect hb hl
    · refine ⟨f', ρ, gone, _, n, rfl, hnext, ?_⟩
      rintro j l₃ rfl
      have hty : f'.ty r = f.ty r := hreuse.values.ty_eq r
      rw [hty]
      exact h.load hf hb hl ho hreuse hdone heffect
  | store d v =>
    refine ⟨f', ρ, gone, _, n, rfl, hnext, ?_⟩
    rintro j l₃ rfl
    have hty : f'.ty v = f.ty v := hreuse.values.ty_eq v
    rw [hty]
    exact h.store hf hb hl ho ht hreuse hdone heffect
  | anywhere => exact ⟨f', ρ, gone, [], n, rfl, hnext, fun _ _ _ => table_nil⟩
  | branch =>
    refine ⟨f', ρ, gone, k, n, rfl, hnext, ?_⟩
    rintro j l₃ rfl
    have hbranch := effect_eq_branch heffect
    rw [hop] at hbranch
    exact h.keep hf hb hl ho (isCall_of_isBranch hbranch) (isAccess_of_isBranch hbranch)
  | nothing =>
    refine ⟨f', ρ, gone, k, n, rfl, hnext, ?_⟩
    rintro j l₃ rfl
    obtain ⟨-, hcall, haccess⟩ := effect_eq_nothing heffect
    rw [hop] at hcall haccess
    exact h.keep hf hb hl ho hcall haccess

theorem forward_reuses (hb : b ∈ f.order) (hl : f.blockInstrs b = l₁ ++ l₂) {s : State}
    (hreuse : Reuses f done s.fragment ρ gone) (hdone : ∀ i ∈ l₂, i ∉ done)
    (h : ∀ j l₃, l₂ = j :: l₃ → Table f ρ gone s.known j) :
    ∃ s' ρ' gone', l₂.foldlM forwardInstr s = .ok s' ∧
      Reuses f (l₂ ++ done) s'.fragment ρ' gone' := by
  induction l₂ generalizing l₁ s done ρ gone with
  | nil => exact ⟨s, ρ, gone, rfl, hreuse⟩
  | cons i l₂ ih =>
    obtain ⟨f', k, n⟩ := s
    obtain ⟨f₁, ρ₁, gone₁, k₁, n₁, hstep, hreuse₁, h₁⟩ :=
      forwardInstr_reuses hf ho ht hfit hb hl (h i l₂ rfl) hreuse (hdone i (by simp)) n
    have hnodup : i ∉ l₂ := by
      have hn := (hf.chain b hb).nodup
      rw [hl, List.nodup_append] at hn
      exact (List.nodup_cons.mp hn.2.1).1
    obtain ⟨s', ρ', gone', hs', hreuse'⟩ := ih (s := ⟨f₁, k₁, n₁⟩)
      (by rw [hl, List.append_cons]) hreuse₁ (by
      intro x hx hm
      rcases List.mem_cons.mp hm with rfl | hm
      · exact hnodup hx
      · exact hdone x (List.mem_cons_of_mem _ hx) hm) h₁
    refine ⟨s', ρ', gone', ?_, hreuse'.mono (by simp)⟩
    rw [List.foldlM_cons, hstep]
    exact hs'

theorem forwardBlock_reuses (hb : b ∈ f.order) {s : State}
    (hreuse : Reuses f done s.fragment ρ gone) (hdone : ∀ i ∈ f.blockInstrs b, i ∉ done) :
    ∃ s' ρ' gone', forwardBlock s b = .ok s' ∧
      Reuses f (f.blockInstrs b ++ done) s'.fragment ρ' gone' := by
  have hlist : s.fragment.blockInstrs b = f.blockInstrs b := by
    rw [hreuse.rewrites.blockInstrs_eq hb, List.filter_eq_self]
    intro i hi
    simpa using hreuse.not_gone (WellFormed.mem_allInstrs hb hi) (hdone i hi)
  unfold forwardBlock
  rw [hlist]
  exact forward_reuses (s := { s with known := [] }) hf ho ht hfit hb
    (List.nil_append _).symm hreuse
    hdone fun _ _ _ => table_nil

/-- Reusing loads ends, with a justified rewriting. -/
theorem loads_reuses (hu : f.UseLists) : ∃ s ρ gone done,
    f.order.foldlM forwardBlock { fragment := f } = .ok s ∧
      Reuses f done s.fragment ρ gone := by
  have hblocks : ∀ (bs : List BlockId), bs ⊆ f.order → bs.Nodup → ∀ (done : List InstrId) ρ gone
      (s : State), Reuses f done s.fragment ρ gone → (∀ b ∈ bs, ∀ i ∈ f.blockInstrs b, i ∉ done) →
        ∃ s' ρ' gone' done', bs.foldlM forwardBlock s = .ok s' ∧
          Reuses f done' s'.fragment ρ' gone' := by
    intro bs
    induction bs with
    | nil => exact fun _ _ done ρ gone s h _ => ⟨s, ρ, gone, done, rfl, h⟩
    | cons b bs ih =>
      intro hsub hnodup done ρ gone s h hd
      rw [List.nodup_cons] at hnodup
      have hb : b ∈ f.order := hsub (by simp)
      obtain ⟨s₁, ρ₁, gone₁, hs₁, h₁⟩ := forwardBlock_reuses hf ho ht hfit hb h (hd b (by simp))
      obtain ⟨s', ρ', gone', done', hs', h'⟩ := ih (fun a ha => hsub (List.mem_cons_of_mem _ ha))
        hnodup.2 _ _ _ s₁ h₁ (by
          intro a ha i hi hm
          rcases List.mem_append.mp hm with hm | hm
          · have hab := block_unique hf (hsub (List.mem_cons_of_mem _ ha)) hb hi hm
            exact hnodup.1 (hab ▸ ha)
          · exact hd a (List.mem_cons_of_mem _ ha) i hi hm)
      refine ⟨s', ρ', gone', done', ?_, h'⟩
      rw [List.foldlM_cons, hs₁]
      exact hs'
  exact hblocks f.order (List.Subset.refl _) hf.order_nodup [] _ _ _ (reuses_start hf hu) (by simp)

end
/-! ### Accesses of the rewritten fragment -/

/-- The first fragment goes on alone to what the second one has in front of it. -/
theorem Beside.reaches {σ : Type} {g : Guest σ} {o : Offsets} {n : Nat} (hf : WellFormed f)
    (h : Rewrites f f' ρ gone) (hJ : Justified g o (Reached g o n f) f f' ρ)
    {code code' : List InstrId} {blocks blocks' : List BlockId} {s s' : Cells} {m m' : Memory σ}
    (hb : Beside (Reached g o n f) f f' ρ gone ⟨⟨code, blocks⟩, s, m⟩
      ⟨⟨i :: code', blocks'⟩, s', m'⟩) :
    ∃ rest s₁, i ∉ gone ∧ Beside (Reached g o n f) f f' ρ gone ⟨⟨i :: rest, blocks⟩, s₁, m⟩
      ⟨⟨i :: code', blocks'⟩, s', m'⟩ := by
  induction code generalizing s with
  | nil => cases hb.code_eq
  | cons j rest ih =>
    by_cases hg : j ∈ gone
    · obtain ⟨s₁, -, hb₁⟩ := hb.skip h hf reached_preserved hJ hg
      exact ih hb₁
    · have hcode : i :: code' = j :: rest.filter (· ∉ gone) := by
        rw [← List.filter_cons_of_pos (by simpa using hg)]
        exact hb.code_eq
      cases hcode
      exact ⟨rest, s, hg, hb⟩

/-- The accesses that the rewritten fragment comes to are accesses of the one at the start. -/
theorem Reuses.contained (h : Reuses f done f' ρ gone) (hf : WellFormed f) (ho : Ordered f)
    (ht : Typed f) {σ : Type} {g : Guest σ} {o : Offsets} {n : Nat} (hg : g.Apart)
    (hc : Contained g o n f) : Contained g o n f' := by
  intro i code blocks s m hr
  have hJ := justified_same h.values (h.justified σ g o n hg hc)
  obtain ⟨w, x, hw, hgo⟩ := hr.from_start
  obtain ⟨y, ⟨⟨code₁, blocks₁⟩, s₁, m₁⟩, -, hb⟩ := Machine.goesIn_right
    (Beside.pace_all h.rewrites hf ho (ht.targets hf) reached_preserved hJ)
    (h.rewrites.beside_start (.start hw)) hgo
  obtain ⟨rest, s₂, hig, hb⟩ := Beside.reaches hf h.rewrites hJ hb
  have hi := hb.inv.mem_allInstrs hf
  rw [h.rewrites.op_eq i hi, accessAt_eq h.rewrites hf ho hi hig hb.agrees,
    h.rewrites.opTy_eq hf ho hi hig]
  exact hc i rest blocks₁ s₂ m₁ hb.inv

end Recompiler.Pass.ContextReuse
