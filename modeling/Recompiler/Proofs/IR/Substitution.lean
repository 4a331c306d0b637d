import Recompiler.Proofs.IR.Methods
import Recompiler.Proofs.IR.Rewriting

/-!
Rewriting keeps the meaning of a fragment if each replaced result has the bits of the value that
stands for it. The two fragments run side by side; instructions that are gone are passed by the
first one alone.
-/
namespace Recompiler.Meaning

open IR Fragment Interp Machine

variable {σ : Type} {g : Guest σ} {o : Offsets} {f f' f'' : Fragment} {ρ : ValueId → ValueId}
  {gone : List InstrId} {i : InstrId} {p : Point} {s s' : Cells} {m : Memory σ}

/-! ### The same meaning -/

/-- Two runs end alike: with the same fault, or with the same world. Exits to constant targets go
to the same address; an exit to a computed target may have become one to the constant address that
was computed. -/
inductive SameResult (o : Offsets) (f f' : Fragment) : Result σ → Result σ → Prop
  | fault (e : Fault) : SameResult o f f' (.error e) (.error e)
  | dynamic (w : World σ) : SameResult o f f' (.ok (.dynamic, w)) (.ok (.dynamic, w))
  | static {n n' : Nat} {a : UInt32} (w : World σ) (h : (Exit.statics f)[n]? = some a)
      (h' : (Exit.statics f')[n']? = some a) :
      SameResult o f f' (.ok (.static n, w.set32 o.pc a)) (.ok (.static n', w.set32 o.pc a))
  | resolved {n' : Nat} {a : UInt32} (w : World σ) (h' : (Exit.statics f')[n']? = some a) :
      SameResult o f f' (.ok (.dynamic, w.set32 o.pc a)) (.ok (.static n', w.set32 o.pc a))

/-- Evaluated from the world `w`, the fragment comes to the world `w'`. -/
def Passes (g : Guest σ) (o : Offsets) (f : Fragment) (w w' : World σ) : Prop :=
  ∃ n c, GoesIn (step f cells g o) n (start f (fun _ => 0) w) c ∧ c.memory.world = w'

/-- From the world `w`, one fragment ends if the other does, and they end alike; and whether they
end or not, they pass the same worlds. -/
structure SameMeaningFrom (g : Guest σ) (o : Offsets) (f f' : Fragment) (w : World σ) : Prop where
  forth : ∀ r, Evaluates g o f w r → ∃ r', Evaluates g o f' w r' ∧ SameResult o f f' r r'
  back : ∀ r', Evaluates g o f' w r' → ∃ r, Evaluates g o f w r ∧ SameResult o f f' r r'
  worlds : ∀ w', Passes g o f w w' ↔ Passes g o f' w w'

/-- From every world, one fragment ends if the other does, and they end alike; and whether they end
or not, they pass the same worlds. -/
structure SameMeaning (g : Guest σ) (o : Offsets) (f f' : Fragment) : Prop where
  forth : ∀ w r, Evaluates g o f w r → ∃ r', Evaluates g o f' w r' ∧ SameResult o f f' r r'
  back : ∀ w r', Evaluates g o f' w r' → ∃ r, Evaluates g o f w r ∧ SameResult o f f' r r'
  worlds : ∀ w w', Passes g o f w w' ↔ Passes g o f' w w'

/-- What an instruction does that does not branch. -/
def performed (g : Guest σ) (o : Offsets) (f : Fragment) (i : InstrId) (s : Cells) (m : Memory σ) :
    Except Fault (Option UInt64 × Memory σ) :=
  perform g o (f.instr i).op (opTy f (f.instr i)) (argTy f (f.instr i) 0) (argTy f (f.instr i) 1)
    (argBits f cells s (f.instr i) 0) (argBits f cells s (f.instr i) 1)
    (argBits f cells s (f.instr i) 2) m

theorem runInstr_eq (rest : Point) : runInstr f cells g o i rest s m =
    if (f.instr i).op.isBranch then
      if isTaken (f.instr i).op (argBits f cells s (f.instr i) 0) then
        jump f cells o s m (Exit.target? (f.instr i))
      else .go ⟨rest, s, m⟩
    else
      match performed g o f i s m with
      | .ok (x, m) => .go ⟨rest, keep f cells (f.instr i) s x, m⟩
      | .error e => .stop (.error e) := rfl

/-- What a step to another state can be. -/
inductive Moves (g : Guest σ) (o : Offsets) (f : Fragment) : Config Cells σ → Config Cells σ → Prop
  | enter {b : BlockId} {blocks : List BlockId} {s : Cells} {m : Memory σ} :
      Moves g o f ⟨⟨[], b :: blocks⟩, s, m⟩ ⟨⟨f.blockInstrs b, blocks⟩, s, m⟩
  | untaken {i : InstrId} {code : List InstrId} {blocks : List BlockId} {s : Cells} {m : Memory σ}
      (hop : (f.instr i).op.isBranch = true) (hne : (f.instr i).op ≠ .branch) :
      Moves g o f ⟨⟨i :: code, blocks⟩, s, m⟩ ⟨⟨code, blocks⟩, s, m⟩
  | jump {i : InstrId} {code : List InstrId} {blocks : List BlockId} {s : Cells} {m : Memory σ}
      {v : ValueId} {b : BlockId} (hop : (f.instr i).op.isBranch = true)
      (htarget : Exit.target? (f.instr i) = some v)
      (hv : (f.value v).origin = .constant (.blk b)) :
      Moves g o f ⟨⟨i :: code, blocks⟩, s, m⟩ ⟨startOf f b, s, m⟩
  | perform {i : InstrId} {code : List InstrId} {blocks : List BlockId} {s : Cells}
      {m m' : Memory σ} {x : Option UInt64} (hop : (f.instr i).op.isBranch = false)
      (h : performed g o f i s m = .ok (x, m')) :
      Moves g o f ⟨⟨i :: code, blocks⟩, s, m⟩ ⟨⟨code, blocks⟩, keep f cells (f.instr i) s x, m'⟩

theorem moves_of_step {c c' : Config Cells σ} (h : step f cells g o c = .go c') :
    Moves g o f c c' := by
  obtain ⟨⟨code, blocks⟩, s, m⟩ := c
  cases code with
  | nil =>
    cases blocks with
    | nil => cases h
    | cons b blocks =>
      cases h
      exact .enter
  | cons i code =>
    rw [step_instr, runInstr_eq] at h
    cases hop : (f.instr i).op.isBranch with
    | true =>
      simp only [hop, if_true] at h
      split at h
      · next ht =>
        cases htarget : Exit.target? (f.instr i) with
        | none =>
          rw [htarget] at h
          cases h
        | some v =>
          rw [htarget] at h
          unfold jump at h
          dsimp only at h
          split at h
          · next b hv =>
            cases h
            exact .jump hop htarget hv
          · split at h <;> cases h
          · cases h
      · next ht =>
        cases h
        refine .untaken hop fun e => ht ?_
        rw [e]
        rfl
    | false =>
      simp only [hop, Bool.false_eq_true, if_false] at h
      cases hperf : performed g o f i s m with
      | error e =>
        rw [hperf] at h
        cases h
      | ok out =>
        rw [hperf] at h
        cases h
        exact .perform hop hperf

/-- A property that steps keep. -/
def Preserved (g : Guest σ) (o : Offsets) (f : Fragment) (I : Config Cells σ → Prop) : Prop :=
  ∀ c c', I c → step f cells g o c = .go c' → I c'

/-- A property of all states that a fragment comes to. -/
structure Invariant (g : Guest σ) (o : Offsets) (f : Fragment) (I : Config Cells σ → Prop) :
    Prop where
  start : ∀ w, I (start f (fun _ => 0) w)
  move : ∀ c c', I c → Moves g o f c c' → I c'

theorem Invariant.preserved {I : Config Cells σ → Prop} (hI : Invariant g o f I) :
    Preserved g o f I := fun c c' hc h => hI.move c c' hc (moves_of_step h)

/-- Results defined on every path to the point have the bits of what stands for them. -/
def Agrees (f f' : Fragment) (ρ : ValueId → ValueId) (p : Point) (s s' : Cells) : Prop :=
  ∀ k ∈ f.allInstrs, ∀ v, (f.instr k).result = some v → Dominates f k p →
    bits f' cells s' (ρ v) = s v

/-- The instruction `i` only computes its result `v`, and the result is `x`. -/
def Computes (g : Guest σ) (o : Offsets) (f : Fragment) (i : InstrId) (v : ValueId) (s : Cells)
    (m : Memory σ) (x : UInt64) : Prop :=
  (f.instr i).op.isBranch = false ∧ ∃ y, performed g o f i s m = .ok (some y, m) ∧
    fit (f.ty v) y = x

/-- Wherever control comes to `i`, it computes the bits of `w`. -/
def Justifies (g : Guest σ) (o : Offsets) (I : Config Cells σ → Prop) (f f' : Fragment)
    (ρ : ValueId → ValueId) (i : InstrId) (v w : ValueId) : Prop :=
  ∀ code blocks s s' m, I ⟨⟨i :: code, blocks⟩, s, m⟩ →
    Agrees f f' ρ ⟨i :: code, blocks⟩ s s' → Computes g o f i v s m (bits f' cells s' w)

/-- Where a result is replaced, its instruction computes the bits of what stands for it. -/
def Justified (g : Guest σ) (o : Offsets) (I : Config Cells σ → Prop) (f f' : Fragment)
    (ρ : ValueId → ValueId) : Prop :=
  ∀ i ∈ f.allInstrs, ∀ v, (f.instr i).result = some v → ρ v ≠ v →
    Justifies g o I f f' ρ i v (ρ v)

theorem bits_eq_cell {v : ValueId} (h : (f.value v).origin = .result i) :
    bits f cells s v = s v := by
  rw [bits, h]
  rfl

/-! ### Branch targets -/

/-- Branches go to a block of the fragment or to a 32-bit address. -/
def Targets (f : Fragment) : Prop :=
  ∀ i ∈ f.allInstrs, (f.instr i).op.isBranch = true → ∃ v, Exit.target? (f.instr i) = some v ∧
    (f.ty v = .i32 ∨ ∃ b, (f.value v).origin = .constant (.blk b))

theorem slot_eq_ok {exits : List UInt32} {a : UInt32} (h : a ∈ exits) :
    ∃ n, Exit.slot exits a = .ok n ∧ exits[n]? = some a := by
  obtain ⟨n, hn⟩ := slot_ok h
  refine ⟨n, hn, ?_⟩
  unfold Exit.slot at hn
  cases hidx : exits.idxOf? a with
  | none =>
    rw [hidx] at hn
    cases hn
  | some k =>
    rw [hidx] at hn
    cases hn
    rw [List.idxOf?, List.findIdx?_eq_some_iff_getElem] at hidx
    obtain ⟨hlt, he, -⟩ := hidx
    rw [List.getElem?_eq_getElem hlt, beq_iff_eq.mp he]

section
variable (h : Rewrites f f' ρ gone) (hf : WellFormed f) (ho : Ordered f)
include h hf ho

theorem Rewrites.arg_ty (hi : i ∈ f.allInstrs) {n : Slot} {v : ValueId}
    (hv : (f.instr i).arg n = some v) : f'.ty (ρ v) = f.ty v := by
  cases hc : f.isConstant v with
  | true =>
    rw [h.map_constant v hc]
    exact h.ty_eq v (hf.arg_lt i hi n v hv)
  | false =>
    obtain ⟨j, hj, hres, -⟩ := ho.precedes hf hi hv hc
    exact (h.stands_ty hf hj hres (h.map_result j hj v hres)).2

theorem Rewrites.arg_bits (hi : i ∈ f.allInstrs) {code : List InstrId} {blocks : List BlockId}
    (ha : Agrees f f' ρ ⟨i :: code, blocks⟩ s s') {n : Slot} {v : ValueId}
    (hv : (f.instr i).arg n = some v) : bits f' cells s' (ρ v) = bits f cells s v := by
  cases hc : f.isConstant v with
  | true =>
    obtain ⟨c, hoc⟩ := (Value.isConstant_iff _).mp hc
    rw [h.map_constant v hc, bits, bits, h.origin_eq v (hf.arg_lt i hi n v hv), hoc]
  | false =>
    obtain ⟨j, hj, hres, hji⟩ := ho.precedes hf hi hv hc
    rw [ha j hj v hres (hji.dominates hf code blocks), bits, (hf.result j hj v hres).2]
    rfl

theorem Rewrites.argTy_eq (hi : i ∈ f.allInstrs) (hg : i ∉ gone) (n : Slot) :
    argTy f' (f'.instr i) n = argTy f (f.instr i) n := by
  rw [argTy, h.arg_eq i hi hg, argTy]
  cases hv : (f.instr i).arg n with
  | none => rfl
  | some v => exact h.arg_ty hf ho hi hv

theorem Rewrites.opTy_eq (hi : i ∈ f.allInstrs) (hg : i ∉ gone) :
    opTy f' (f'.instr i) = opTy f (f.instr i) := by
  rw [opTy, h.result_eq i hi, opTy]
  cases hv : (f.instr i).result with
  | none => exact h.argTy_eq hf ho hi hg 1
  | some v => exact h.ty_eq v (hf.result i hi v hv).1

theorem Rewrites.argBits_eq (hi : i ∈ f.allInstrs) (hg : i ∉ gone) {code : List InstrId}
    {blocks : List BlockId} (ha : Agrees f f' ρ ⟨i :: code, blocks⟩ s s') (n : Slot) :
    argBits f' cells s' (f'.instr i) n = argBits f cells s (f.instr i) n := by
  rw [argBits, h.arg_eq i hi hg, argBits]
  cases hv : (f.instr i).arg n with
  | none => rfl
  | some v => exact h.arg_bits hf ho hi ha hv

theorem Rewrites.performed_eq (hi : i ∈ f.allInstrs) (hg : i ∉ gone) {code : List InstrId}
    {blocks : List BlockId} (ha : Agrees f f' ρ ⟨i :: code, blocks⟩ s s') :
    performed g o f' i s' m = performed g o f i s m := by
  unfold performed
  rw [h.op_eq i hi, h.opTy_eq hf ho hi hg, h.argTy_eq hf ho hi hg, h.argTy_eq hf ho hi hg,
    h.argBits_eq hf ho hi hg ha, h.argBits_eq hf ho hi hg ha, h.argBits_eq hf ho hi hg ha]

end

/-! ### Changes that keep the justification -/

variable {I : Config Cells σ → Prop} {v w r : ValueId}

theorem justified_id : Justified g o I f f' id := fun _ _ _ _ hne => absurd rfl hne

/-- Only the origins of the values that stand for others matter. -/
theorem Justified.congr (hJ : Justified g o I f f' ρ)
    (h : ∀ k ∈ f.allInstrs, ∀ v, (f.instr k).result = some v →
      (f''.value (ρ v)).origin = (f'.value (ρ v)).origin) : Justified g o I f f'' ρ := by
  have hbits : ∀ k ∈ f.allInstrs, ∀ v, (f.instr k).result = some v → ∀ s,
      bits f'' cells s (ρ v) = bits f' cells s (ρ v) := by
    intro k hk v hv s
    rw [bits, h k hk v hv, bits]
  intro i hi v hv hne code blocks s s' m hinv ha
  rw [hbits i hi v hv]
  refine hJ i hi v hv hne code blocks s s' m hinv fun k hk u hu hdom => ?_
  rw [← hbits k hk u hu]
  exact ha k hk u hu hdom

/-- A cell for `r` with the bits of `w` makes up for the substitution. -/
theorem bits_subst (hr : (f.value r).origin = .result i) (w : ValueId) (s : Cells) (v : ValueId) :
    bits f cells (fun u => if u = r then bits f cells s w else s u) v =
      bits f cells s (subst r w v) := by
  unfold subst
  by_cases hv : v = r
  · rw [if_pos hv, hv, bits_eq_cell hr, if_pos rfl]
  · rw [if_neg hv]
    unfold bits
    split
    · rfl
    · exact if_neg hv

theorem Justified.subst (hJ : Justified g o I f f' ρ) (hf : WellFormed f)
    (h : Rewrites f f' ρ gone) (hi : i ∈ f.allInstrs) (hr : (f.instr i).result = some r)
    (hρ : ρ r = r) (hne : w ≠ r) (hw : Justifies g o I f f' ρ i r w) :
    Justified g o I f f' fun v => Meaning.subst r w (ρ v) := by
  obtain ⟨hlt, horigin⟩ := hf.result i hi r hr
  have hbits := fun s v => bits_subst ((h.origin_eq r hlt).trans horigin) w s v
  intro j hj v hv hmoved code blocks s s' m hinv ha
  have ha' : Agrees f f' ρ ⟨j :: code, blocks⟩ s
      (fun u => if u = r then bits f' cells s' w else s' u) := by
    intro k hk u hu hdom
    rw [hbits]
    exact ha k hk u hu hdom
  by_cases hvr : v = r
  · subst hvr
    obtain rfl := hf.result_inj hj hi hv hr
    have hc := hw code blocks s _ m hinv ha'
    rw [hbits] at hc
    simp only [Meaning.subst, if_neg hne] at hc
    simp only [Meaning.subst, hρ, if_true]
    exact hc
  · have hmoved' : ρ v ≠ v := by
      intro e
      simp only [Meaning.subst, e, if_neg hvr] at hmoved
      exact hmoved rfl
    have hc := hJ j hj v hv hmoved' code blocks s _ m hinv ha'
    rw [hbits] at hc
    exact hc

/-! ### Side by side -/

/-- Passing `i` keeps the agreement if it holds of the result of `i`. -/
theorem Rewrites.agrees_next (h : Rewrites f f' ρ gone) (hf : WellFormed f)
    {seen code : List InstrId}
    {blocks : List BlockId} {s₁ s₁' : Cells} (hpath : Path f seen ⟨i :: code, blocks⟩)
    (hnext : ∀ seen, Path f seen ⟨i :: code, blocks⟩ → Path f (i :: seen) p)
    (ha : Agrees f f' ρ ⟨i :: code, blocks⟩ s s')
    (hs : ∀ v, (f.instr i).result ≠ some v → s₁ v = s v ∧ s₁' v = s' v)
    (hresult : ∀ v, (f.instr i).result = some v → bits f' cells s₁' (ρ v) = s₁ v) :
    Agrees f f' ρ p s₁ s₁' := by
  have hi : i ∈ f.allInstrs := (hnext seen hpath).mem_allInstrs hf (by simp)
  intro k hk v hv hdom
  by_cases hki : k = i
  · subst hki
    exact hresult v hv
  · have hdom' : Dominates f k ⟨i :: code, blocks⟩ := by
      intro seen hp
      exact (List.mem_cons.mp (hdom _ (hnext seen hp))).resolve_left hki
    have hne : (f.instr i).result ≠ some v := fun e => hki (hf.result_inj hk hi hv e)
    rw [(hs v hne).1, ← ha k hk v hv hdom']
    -- the cell of what stands for `v` is not written, since `i` would precede `k`
    unfold bits
    split
    · rfl
    · next j horigin =>
      refine (hs (ρ v) fun e => ?_).2
      rcases h.map_result k hk v hv with hself | ⟨hc, -, -, -⟩ | ⟨hj, -, hres, hjk, -⟩
      · exact hne (hself ▸ e)
      · rw [hc] at horigin
        cases horigin
      · rw [hf.result_inj hj hi hres e] at hjk
        exact hjk.not_dominates hf hpath hdom'

/-- The states in which the two fragments are at the same place. -/
structure Beside (I : Config Cells σ → Prop) (f f' : Fragment) (ρ : ValueId → ValueId)
    (gone : List InstrId) (c c' : Config Cells σ) : Prop where
  inv : I c
  path : ∃ seen, Path f seen c.point
  code_eq : c'.point.code = c.point.code.filter (· ∉ gone)
  blocks_eq : c'.point.blocks = c.point.blocks
  memory_eq : c'.memory = c.memory
  kept : ∀ k ∈ f.allInstrs, ∀ v, (f.instr k).result = some v → k ∉ gone → c'.store v = c.store v
  agrees : Agrees f f' ρ c.point c.store c'.store

theorem keep_eq {v : ValueId} {x : UInt64} (hv : (f.instr i).result = some v) :
    keep f cells (f.instr i) s (some x) = fun u => if u = v then fit (f.ty v) x else s u := by
  unfold keep
  rw [hv]
  rfl

theorem keep_none : keep f cells (f.instr i) s none = s := by
  unfold keep
  cases (f.instr i).result <;> rfl

theorem keep_of_ne {v : ValueId} (hv : (f.instr i).result ≠ some v) (x : Option UInt64) :
    keep f cells (f.instr i) s x v = s v := by
  cases x with
  | none => rw [keep_none]
  | some y =>
    cases hu : (f.instr i).result with
    | none =>
      unfold keep
      rw [hu]
    | some u =>
      rw [keep_eq hu]
      refine if_neg fun e => hv ?_
      rw [hu, e]

/-- An instruction that is gone is passed by the first fragment alone. -/
theorem Beside.skip (h : Rewrites f f' ρ gone) (hf : WellFormed f) (hI : Preserved g o f I)
    (hJ : Justified g o I f f' ρ) {code : List InstrId} {blocks : List BlockId}
    {c' : Config Cells σ} (hb : Beside I f f' ρ gone ⟨⟨i :: code, blocks⟩, s, m⟩ c')
    (hg : i ∈ gone) : ∃ s₁, step f cells g o ⟨⟨i :: code, blocks⟩, s, m⟩ =
      .go ⟨⟨code, blocks⟩, s₁, m⟩ ∧
      Beside I f f' ρ gone ⟨⟨code, blocks⟩, s₁, m⟩ c' := by
  obtain ⟨hi, v, hv, hne⟩ := h.gone_replaced i hg
  obtain ⟨hop, y, hy, hbits⟩ := hJ i hi v hv hne code blocks s c'.store m hb.inv hb.agrees
  obtain ⟨seen, hpath⟩ := hb.path
  have hstep : step f cells g o ⟨⟨i :: code, blocks⟩, s, m⟩ =
      .go ⟨⟨code, blocks⟩, fun u => if u = v then fit (f.ty v) y else s u, m⟩ := by
    rw [step_instr, runInstr_eq, hop, hy]
    simp only [Bool.false_eq_true, if_false, keep_eq hv]
  have hnext : ∀ seen, Path f seen ⟨i :: code, blocks⟩ → Path f (i :: seen) ⟨code, blocks⟩ := by
    intro seen hp
    refine hp.pass fun e => ?_
    rw [e] at hop
    cases hop
  refine ⟨_, hstep, hI _ _ hb.inv hstep, ⟨_, hnext seen hpath⟩, ?_, hb.blocks_eq, hb.memory_eq,
    ?_, ?_⟩
  · rw [hb.code_eq, List.filter_cons_of_neg (by simpa using hg)]
  · intro k hk u hu hkg
    have huv : u ≠ v := by
      rintro rfl
      exact hkg (hf.result_inj hk hi hu hv ▸ hg)
    simp only [if_neg huv]
    exact hb.kept k hk u hu hkg
  · refine h.agrees_next hf hpath hnext hb.agrees (fun u hu => ?_) (fun u hu => ?_)
    · have huv : u ≠ v := by
        rintro rfl
        exact hu hv
      exact ⟨if_neg huv, rfl⟩
    · rw [hv] at hu
      cases hu
      simp only [if_true]
      exact hbits.symm

theorem target?_mem {ins : Instr} {v : ValueId} (h : Exit.target? ins = some v) :
    ∃ n, ins.arg n = some v := by
  unfold Exit.target? at h
  split at h
  · exact ⟨0, h⟩
  · exact ⟨1, h⟩
  · exact ⟨1, h⟩
  · cases h

theorem Rewrites.target?_eq (h : Rewrites f f' ρ gone) (hi : i ∈ f.allInstrs) (hg : i ∉ gone) :
    Exit.target? (f'.instr i) = (Exit.target? (f.instr i)).map ρ := by
  unfold Exit.target?
  rw [h.op_eq i hi]
  split
  · exact h.arg_eq i hi hg 0
  · exact h.arg_eq i hi hg 1
  · exact h.arg_eq i hi hg 1
  · rfl

/-- A constant 32-bit target is an exit of the fragment. -/
theorem static_exit {v : ValueId} {c : Constant} (hi : i ∈ f.allInstrs)
    (hv : Exit.target? (f.instr i) = some v) (hc : (f.value v).origin = .constant c)
    (hty : c.ty = .i32) : ∃ a n, c = .i32 a ∧ (Exit.statics f)[n]? = some a ∧
      jump f cells o s m (some v) = .stop (.ok (.static n, m.world.set32 o.pc a)) := by
  cases c with
  | i32 a =>
    have ha : Exit.address? f i = some a := by
      unfold Exit.address? Value.constant?
      simp [hv, hc]
    obtain ⟨n, hn, hslot⟩ := slot_eq_ok (mem_statics hi ha)
    refine ⟨a, n, rfl, hslot, ?_⟩
    have hword : ((Constant.i32 a).bits?.getD 0).toUInt32 = a := by simp [Constant.bits?]
    unfold jump
    simp only [hc, hword, hn]
  | _ => cases hty

/-- Both fragments pass `i` and change the cell of its result at most. -/
theorem Beside.next (h : Rewrites f f' ρ gone) (hf : WellFormed f) {c c' : Config Cells σ}
    {code : List InstrId} {blocks : List BlockId} (hb : Beside I f f' ρ gone c c')
    (hp : c.point = ⟨i :: code, blocks⟩) (hg : i ∉ gone) {d d' : Config Cells σ} (hinv : I d)
    (hnext : ∀ seen, Path f seen ⟨i :: code, blocks⟩ → Path f (i :: seen) d.point)
    (hcode : d'.point.code = d.point.code.filter (· ∉ gone))
    (hblocks : d'.point.blocks = d.point.blocks) (hmemory : d'.memory = d.memory)
    (hs : ∀ v, (f.instr i).result ≠ some v → d.store v = c.store v ∧ d'.store v = c'.store v)
    (hkept : ∀ v, (f.instr i).result = some v → d'.store v = d.store v)
    (hresult : ∀ v, (f.instr i).result = some v → ρ v ≠ v →
      bits f' cells d'.store (ρ v) = d.store v) : Beside I f f' ρ gone d d' := by
  obtain ⟨seen, hpath⟩ := hb.path
  have hagrees := hb.agrees
  rw [hp] at hpath hagrees
  have hi : i ∈ f.allInstrs := (hnext seen hpath).mem_allInstrs hf (by simp)
  refine ⟨hinv, ⟨_, hnext seen hpath⟩, hcode, hblocks, hmemory, fun k hk v hv hkg => ?_, ?_⟩
  · by_cases hki : k = i
    · subst hki
      exact hkept v hv
    · obtain ⟨e, e'⟩ := hs v fun hiv => hki (hf.result_inj hk hi hv hiv)
      rw [e, e']
      exact hb.kept k hk v hv hkg
  · refine h.agrees_next hf hpath hnext hagrees hs fun v hv => ?_
    by_cases hρ : ρ v = v
    · have horigin := (h.origin_eq v (hf.result i hi v hv).1).trans (hf.result i hi v hv).2
      rw [hρ, bits_eq_cell horigin]
      exact hkept v hv
    · exact hresult v hv hρ

/-- The instructions in front of a state, as its rank. -/
def ahead (c : Config Cells σ) : Nat := c.point.code.length

section
variable (h : Rewrites f f' ρ gone) (hf : WellFormed f) (ho : Ordered f) (ht : Targets f)
  (hI : Preserved g o f I) (hJ : Justified g o I f f' ρ) {code : List InstrId}
  {blocks : List BlockId}
include h hf ho ht hI hJ

/-- A branch that leaves the fragments or goes to a block of them. -/
theorem Beside.jump (hb : Beside I f f' ρ gone ⟨⟨i :: code, blocks⟩, s, m⟩
      ⟨⟨i :: code.filter (· ∉ gone), blocks⟩, s', m⟩)
    (hg : i ∉ gone) (hi : i ∈ f.allInstrs) (hop : (f.instr i).op.isBranch = true)
    (hstep : step f cells g o ⟨⟨i :: code, blocks⟩, s, m⟩ =
      Meaning.jump f cells o s m (Exit.target? (f.instr i)))
    (hstep' : step f' cells g o ⟨⟨i :: code.filter (· ∉ gone), blocks⟩, s', m⟩ =
      Meaning.jump f' cells o s' m (Exit.target? (f'.instr i))) :
    Pace (step f cells g o) (step f' cells g o) ahead (Beside I f f' ρ gone) (SameResult o f f')
      ⟨⟨i :: code, blocks⟩, s, m⟩ ⟨⟨i :: code.filter (· ∉ gone), blocks⟩, s', m⟩ := by
  obtain ⟨v, hv, hty⟩ := ht i hi hop
  obtain ⟨n, hn⟩ := target?_mem hv
  have htarget := h.target?_eq hi hg
  have hlt := hf.arg_lt i hi n v hn
  have hbits : bits f' cells s' (ρ v) = bits f cells s v := h.arg_bits hf ho hi hb.agrees hn
  rw [hv] at hstep
  rw [htarget, hv, Option.map_some] at hstep'
  rcases hty with hty | ⟨b, hblk⟩
  · cases horigin : (f.value v).origin with
    | constant c =>
      have hρ : ρ v = v := h.map_constant v ((Value.isConstant_iff _).mpr ⟨c, horigin⟩)
      have hcty : c.ty = .i32 := (hf.constant_ty v hlt c horigin).symm.trans hty
      rw [hρ] at hstep'
      obtain ⟨a, k, rfl, hk, hjump⟩ := static_exit (o := o) (s := s) (m := m) hi hv horigin hcty
      obtain ⟨a', k', hc, hk', hjump'⟩ := static_exit (o := o) (s := s') (m := m)
        (h.mem_allInstrs hi hg) (by rw [htarget, hv, Option.map_some, hρ])
        ((h.origin_eq v hlt).trans horigin) hcty
      cases hc
      exact .stop (hstep.trans hjump) (hstep'.trans hjump')
        (.static _ hk hk')
    | result j =>
      have hjump : Meaning.jump f cells o s m (some v) =
          .stop (.ok (.dynamic, m.world.set32 o.pc (s v).toUInt32)) := by
        unfold Meaning.jump
        simp only [horigin]
        rfl
      rw [bits_eq_cell horigin] at hbits
      cases horigin' : (f'.value (ρ v)).origin with
      | constant c =>
        have hlt' : (ρ v).index < f'.values.size := by
          by_contra hge
          rw [value_eq_default (by omega)] at horigin'
          cases horigin'
        have hcty : c.ty = .i32 :=
          (h.constant_ty _ hlt' c horigin').symm.trans ((h.arg_ty hf ho hi hn).trans hty)
        obtain ⟨a, k, rfl, hk, hjump'⟩ := static_exit (o := o) (s := s') (m := m)
          (h.mem_allInstrs hi hg) (by rw [htarget, hv, Option.map_some]) horigin' hcty
        have ha : (s v).toUInt32 = a := by
          rw [← hbits, bits, horigin']
          simp [Constant.bits?]
        rw [ha] at hjump
        exact .stop (hstep.trans hjump) (hstep'.trans hjump')
          (.resolved _ hk)
      | result j' =>
        have hjump' : Meaning.jump f' cells o s' m (some (ρ v)) =
            .stop (.ok (.dynamic, m.world.set32 o.pc (s v).toUInt32)) := by
          unfold Meaning.jump
          rw [bits_eq_cell horigin'] at hbits
          simp only [horigin']
          rw [← hbits]
          rfl
        exact .stop (hstep.trans hjump) (hstep'.trans hjump') (.dynamic _)
  · have hρ : ρ v = v := h.map_constant v ((Value.isConstant_iff _).mpr ⟨_, hblk⟩)
    have hblk' := (h.origin_eq v hlt).trans hblk
    have hjump : Meaning.jump f cells o s m (some v) = .go ⟨startOf f b, s, m⟩ := by
      unfold Meaning.jump
      simp only [hblk]
    have hjump' : Meaning.jump f' cells o s' m (some (ρ v)) = .go ⟨startOf f' b, s', m⟩ := by
      unfold Meaning.jump
      simp only [hρ, hblk']
    have hgo := hstep.trans hjump
    refine .both hgo (hstep'.trans hjump') ?_
    refine hb.next h hf rfl hg (hI _ _ hb.inv hgo) (fun _ hp => hp.jump hv hblk) ?_ ?_ rfl
      (fun _ _ => ⟨rfl, rfl⟩) (fun u hu => hb.kept i hi u hu hg) (fun u hu hne => ?_)
    · exact h.blockInstrs_eq (hf.target v b hblk)
    · simp only [startOf, h.order_eq]
    · have := (hJ i hi u hu hne _ _ _ _ _ hb.inv hb.agrees).1
      rw [hop] at this
      cases this

/-- An instruction that stays is run by both fragments. -/
theorem Beside.both (hb : Beside I f f' ρ gone ⟨⟨i :: code, blocks⟩, s, m⟩
      ⟨⟨i :: code.filter (· ∉ gone), blocks⟩, s', m⟩) (hg : i ∉ gone) :
    Pace (step f cells g o) (step f' cells g o) ahead (Beside I f f' ρ gone) (SameResult o f f')
      ⟨⟨i :: code, blocks⟩, s, m⟩ ⟨⟨i :: code.filter (· ∉ gone), blocks⟩, s', m⟩ := by
  obtain ⟨seen, hpath⟩ := hb.path
  obtain ⟨b, hmem, l₁, -, -, -, hcode, -⟩ := hpath.located_cons hf
  have hi : i ∈ f.allInstrs := WellFormed.mem_allInstrs hmem (by simp [hcode])
  have hstep := step_instr f cells g o i code blocks s m
  have hstep' := step_instr f' cells g o i (code.filter (· ∉ gone)) blocks s' m
  rw [runInstr_eq] at hstep hstep'
  rw [h.op_eq i hi, h.argBits_eq hf ho hi hg hb.agrees, h.performed_eq hf ho hi hg hb.agrees]
    at hstep'
  cases hop : (f.instr i).op.isBranch with
  | true =>
    simp only [hop, if_true] at hstep hstep'
    cases htaken : isTaken (f.instr i).op (argBits f cells s (f.instr i) 0) with
    | true =>
      simp only [htaken, if_true] at hstep hstep'
      exact hb.jump h hf ho ht hI hJ hg hi hop hstep hstep'
    | false =>
      simp only [htaken, Bool.false_eq_true, if_false] at hstep hstep'
      have hne : (f.instr i).op ≠ .branch := by
        intro e
        rw [e] at htaken
        cases htaken
      refine .both hstep hstep' ?_
      refine hb.next h hf rfl hg (hI _ _ hb.inv hstep) (fun _ hp => hp.pass hne) rfl rfl rfl
        (fun _ _ => ⟨rfl, rfl⟩) (fun u hu => hb.kept i hi u hu hg) (fun u hu hne => ?_)
      have := (hJ i hi u hu hne _ _ _ _ _ hb.inv hb.agrees).1
      rw [hop] at this
      cases this
  | false =>
    simp only [hop, Bool.false_eq_true, if_false] at hstep hstep'
    have hne : (f.instr i).op ≠ .branch := by
      intro e
      rw [e] at hop
      cases hop
    cases hperf : performed g o f i s m with
    | error e =>
      rw [hperf] at hstep hstep'
      exact .stop hstep hstep' (.fault e)
    | ok out =>
      obtain ⟨x, m₁⟩ := out
      simp only [hperf] at hstep hstep'
      have hkeep : keep f' cells (f'.instr i) s' x = keep f cells (f.instr i) s' x := by
        unfold keep
        rw [h.result_eq i hi]
        cases hv : (f.instr i).result with
        | none => rfl
        | some v =>
          cases x with
          | none => rfl
          | some y =>
            dsimp only
            rw [h.ty_eq v (hf.result i hi v hv).1]
      rw [hkeep] at hstep'
      refine .both hstep hstep' ?_
      refine hb.next h hf rfl hg (hI _ _ hb.inv hstep) (fun _ hp => hp.pass hne) rfl rfl rfl
        (fun u hu => ?_) (fun u hu => ?_) (fun u hu hρ => ?_)
      · exact ⟨keep_of_ne hu x, keep_of_ne hu x⟩
      · cases x with
        | none =>
          rw [keep_none, keep_none]
          exact hb.kept i hi u hu hg
        | some y => simp only [keep_eq hu, if_true]
      · obtain ⟨-, y, hy, hbits⟩ := hJ i hi u hu hρ _ _ _ _ _ hb.inv hb.agrees
        cases hperf.symm.trans hy
        simp only [keep_eq hu, if_true]
        rw [hbits]
        unfold bits
        split
        · rfl
        · exact if_neg hρ

theorem Beside.pace (code : List InstrId) {blocks : List BlockId} {c' : Config Cells σ}
    (hb : Beside I f f' ρ gone ⟨⟨code, blocks⟩, s, m⟩ c') :
    Pace (step f cells g o) (step f' cells g o) ahead (Beside I f f' ρ gone) (SameResult o f f')
      ⟨⟨code, blocks⟩, s, m⟩ c' := by
  obtain ⟨⟨code', blocks'⟩, s', m'⟩ := c'
  cases code with
  | nil =>
    obtain ⟨seen, hpath⟩ := hb.path
    obtain rfl : code' = [] := hb.code_eq
    obtain rfl : blocks' = blocks := hb.blocks_eq
    obtain rfl : m' = m := hb.memory_eq
    cases blocks' with
    | nil => exact .stop rfl rfl (.dynamic _)
    | cons b blocks =>
      have hmem : b ∈ f.order := hpath.blocks_subset hf (by simp)
      have hstep := step_enter f cells g o b blocks s m'
      refine .both hstep (step_enter f' cells g o b blocks s' m') ?_
      refine ⟨hI _ _ hb.inv hstep, ⟨seen, hpath.enter⟩, h.blockInstrs_eq hmem, rfl, rfl,
        hb.kept, fun k hk v hv hdom => ?_⟩
      exact hb.agrees k hk v hv fun seen hp => hdom seen hp.enter
  | cons i code =>
    by_cases hg : i ∈ gone
    · obtain ⟨s₁, hstep, hb₁⟩ := hb.skip h hf hI hJ hg
      exact .alone hstep (Nat.lt_succ_self _) hb₁
    · have hcode : code' = i :: code.filter (· ∉ gone) := by
        rw [← List.filter_cons_of_pos (by simpa using hg)]
        exact hb.code_eq
      subst hcode
      obtain rfl : blocks' = blocks := hb.blocks_eq
      obtain rfl : m' = m := hb.memory_eq
      exact hb.both h hf ho ht hI hJ hg

theorem Beside.pace_all (c c' : Config Cells σ) (hb : Beside I f f' ρ gone c c') :
    Pace (step f cells g o) (step f' cells g o) ahead (Beside I f f' ρ gone) (SameResult o f f')
      c c' := hb.pace h hf ho ht hI hJ c.point.code

omit hf ho ht hI hJ in
theorem Rewrites.beside_start {w : World σ} (hw : I (start f (fun _ => 0) w)) :
    Beside I f f' ρ gone (start f (fun _ => 0) w) (start f' (fun _ => 0) w) := by
  refine ⟨hw, ⟨[], .start⟩, rfl, h.order_eq, ?_, fun _ _ _ _ _ => rfl, ?_⟩
  · simp only [start, h.localsSize_eq]
  · intro k _ _ _ hdom
    cases hdom [] .start

/-- A justified rewriting keeps the meaning from a world in which the property holds. -/
theorem Rewrites.sameMeaningFrom {w : World σ} (hw : I (start f (fun _ => 0) w)) :
    SameMeaningFrom g o f f' w := by
  have hpace := Beside.pace_all h hf ho ht hI hJ
  have hstart := h.beside_start hw
  obtain ⟨hforth, hback⟩ := simulation (fun _ _ hb => advance_of_pace hpace hb) hstart
  refine ⟨hforth, hback, fun w' => ⟨?_, ?_⟩⟩
  · rintro ⟨n, c, hgo, rfl⟩
    obtain ⟨m, c', hgo', hb⟩ := goesIn_left hpace hstart hgo
    exact ⟨m, c', hgo', by rw [hb.memory_eq]⟩
  · rintro ⟨n, c', hgo', rfl⟩
    obtain ⟨m, c, hgo, hb⟩ := goesIn_right hpace hstart hgo'
    exact ⟨m, c, hgo, by rw [hb.memory_eq]⟩

end

/-- A justified rewriting keeps the meaning. -/
theorem Rewrites.sameMeaning (h : Rewrites f f' ρ gone) (hf : WellFormed f) (ho : Ordered f)
    (ht : Targets f) (hI : Invariant g o f I) (hJ : Justified g o I f f' ρ) :
    SameMeaning g o f f' := by
  have hfrom := fun w => h.sameMeaningFrom hf ho ht hI.preserved hJ (hI.start w)
  exact ⟨fun w => (hfrom w).forth, fun w => (hfrom w).back, fun w => (hfrom w).worlds⟩

end Recompiler.Meaning
