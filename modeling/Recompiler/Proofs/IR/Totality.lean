import Recompiler.Proofs.IR.Receiving

/-!
The reader is total. Whatever the bytes are, it ends: with a fragment in which everything required
is filled, with an error, or at an access whose slot would end where no offset is.
-/
namespace Recompiler.IR

/-! ### Tokens run out -/

namespace Token

variable {cs : List Char} {line : Nat} {ts : List (Except ParseError Placed)}

/-- How many tokens may be read at most is never what ends the tokens of a text. -/
theorem stream_eq {fuel fuel' : Nat} (h : cs.length < fuel) (h' : cs.length < fuel') :
    stream fuel cs line = stream fuel' cs line := by
  induction fuel generalizing fuel' cs line with
  | zero => exact absurd h (Nat.not_lt_zero _)
  | succ fuel ih =>
    obtain ⟨fuel', rfl⟩ : ∃ k, fuel' = k + 1 := ⟨fuel' - 1, by omega⟩
    rw [stream, stream]
    cases hnext : next cs line with
    | error e => rfl
    | ok l =>
      obtain ⟨t, rest, line'⟩ := l
      have htail : t ≠ .eof → stream fuel rest line' = stream fuel' rest line' := by
        intro ht
        have hlt := length_next_lt hnext ht
        apply ih <;> omega
      cases t with
      | eof => rfl
      | _ => exact congrArg (_ :: ·) (htail (by simp))

/-- The last token is an error or the end of the text. -/
def Closed (ts : List (Except ParseError Placed)) : Prop :=
  ∃ x, ts.getLast? = some x ∧ ∀ p, x = .ok p → p.token = .eof

theorem Closed.tail {x y : Except ParseError Placed} (h : Closed (x :: y :: ts)) :
    Closed (y :: ts) := by
  obtain ⟨z, hz, heof⟩ := h
  exact ⟨z, (List.getLast?_cons_cons ..).symm.trans hz, heof⟩

theorem Closed.cons {x : Except ParseError Placed} (h : Closed ts) : Closed (x :: ts) := by
  obtain ⟨z, hz, heof⟩ := h
  exact ⟨z, by rw [List.getLast?_cons, hz]; rfl, heof⟩

theorem stream_closed {fuel : Nat} (h : cs.length < fuel) : Closed (stream fuel cs line) := by
  fun_induction stream fuel cs line with
  | case1 => exact absurd h (Nat.not_lt_zero _)
  | case2 => exact ⟨_, rfl, fun p hp => by cases hp⟩
  | case3 => exact ⟨_, rfl, fun p hp => by cases hp; rfl⟩
  | case4 line fuel cs t rest line' ht hnext ih =>
    have hlt := length_next_lt hnext ht
    exact (ih (by omega)).cons

theorem length_stream_le (fuel : Nat) : (stream fuel cs line).length ≤ fuel := by
  fun_induction stream fuel cs line with
  | case1 => exact Nat.le_refl 0
  | case2 => exact Nat.le_add_left 1 _
  | case3 => exact Nat.le_add_left 1 _
  | case4 line fuel cs t rest line' ht hnext ih => exact Nat.succ_le_succ ih

end Token

namespace Parser

open Fragment Draft

variable {α β : Type} {p : Parse α} {k : α → Parse β} {Q : α → Draft → Prop} {R : β → Draft → Prop}
  {d : Draft} {i : InstrId}

/-! ### Outcomes of an action -/

/-- Whatever comes of the action, the fragment has been reached by requests that do not fault. A
result is as `Q` says, and the only fault is the overflow of an access to local memory. -/
def Safe (d : Draft) (p : Parse α) (Q : α → Draft → Prop) : Prop :=
  ∀ c, match p.run (State.of d c) with
    | (.ok a, s) => Q a ⟨s.fragment, s.references⟩
    | (.error (.refused _), s) => Reached s.fragment
    | (.error (.faulted e), s) => Reached s.fragment ∧ e = .overflow ∧ Overruns s.fragment

theorem Safe.bind (h : Safe d p Q) (hk : ∀ a d', Q a d' → Safe d' (k a) R) :
    Safe d (p >>= k) R := by
  intro c
  have hc := h c
  rw [run_bind]
  cases hp : p.run (State.of d c) with
  | mk x s =>
    rw [hp] at hc
    cases x with
    | ok a => exact hk a _ hc ⟨s.current, s.rest⟩
    | error e => cases e <;> exact hc

theorem Safe.mono {Q' : α → Draft → Prop} (h : Safe d p Q) (hq : ∀ a d', Q a d' → Q' a d') :
    Safe d p Q' := by
  intro c
  have hc := h c
  cases hp : p.run (State.of d c) with
  | mk x s =>
    rw [hp] at hc
    cases x with
    | ok a => exact hq a _ hc
    | error e => cases e <;> exact hc

theorem safe_pure {a : α} (h : Q a d) : Safe d (pure a) Q := fun _ => h

theorem safe_pure_bind {a : α} (h : Safe d (k a) R) : Safe d (pure a >>= k) R := fun c => h c

theorem safe_refuse (h : Reached d.fragment) (e : ParseError) : Safe d (refuse e) Q := fun _ => h

theorem safe_update {g : Fragment → Fragment} {Q : Unit → Draft → Prop}
    (h : Q () { d with fragment := g d.fragment }) : Safe d (update g) Q := fun _ => h

theorem safe_update_bind {g : Fragment → Fragment} {k : Unit → Parse β}
    (h : Safe { d with fragment := g d.fragment } (k ()) R) : Safe d (update g >>= k) R :=
  fun c => h c

theorem safe_extend_bind {g : Fragment → Fragment × α}
    (h : Safe { d with fragment := (g d.fragment).1 } (k (g d.fragment).2) R) :
    Safe d (extend g >>= k) R := fun c => h c

theorem safe_get_bind {k : State → Parse β} (h : ∀ s, s.fragment = d.fragment → Safe d (k s) R) :
    Safe d (get >>= k) R := fun c => h (State.of d c) rfl c

theorem safe_attempt {g : Fragment → Except Fault Fragment} {Q : Unit → Draft → Prop}
    (h : Reached d.fragment) (hok : ∀ f, g d.fragment = .ok f → Q () { d with fragment := f })
    (hfault : ∀ e, g d.fragment = .error e → e = .overflow ∧ Overruns d.fragment) :
    Safe d (attempt g) Q := by
  refine safe_get_bind fun s hs => ?_
  rw [hs]
  cases hg : g d.fragment with
  | ok f => exact safe_update (hok f hg)
  | error e => exact fun _ => ⟨h, hfault e hg⟩

/-! ### Actions that only move the reader -/

/-- The action leaves the draft alone. -/
def Quiet (p : Parse α) : Prop := ∀ d, Reached d.fragment → Safe d p fun _ d' => d' = d

theorem Quiet.then (hp : Quiet p) (h : Reached d.fragment) (hk : ∀ a, Safe d (k a) R) :
    Safe d (p >>= k) R := by
  refine (hp d h).bind fun a d' hd => ?_
  rw [hd]
  exact hk a

theorem Quiet.bind (hp : Quiet p) (hk : ∀ a, Quiet (k a)) : Quiet (p >>= k) :=
  fun d h => hp.then h fun a => hk a d h

theorem quiet_pure (a : α) : Quiet (pure a) := fun _ _ => safe_pure rfl

theorem quiet_refuse (e : ParseError) : Quiet (refuse e : Parse α) := fun _ h => safe_refuse h e

theorem quiet_peek : Quiet peek := fun _ _ _ => rfl

theorem quiet_line : Quiet line := fun _ _ _ => rfl

theorem quiet_advance : Quiet advance := by
  intro d h c
  obtain ⟨cur, rest⟩ := c
  cases rest with
  | nil => rfl
  | cons t rest =>
    cases t with
    | error e => exact h
    | ok t => rfl

theorem quiet_unexpected (expected : String) : Quiet (unexpected expected : Parse α) :=
  quiet_line.bind fun _ => quiet_peek.bind fun _ => quiet_refuse _

theorem quiet_expectOp (ch : Char) : Quiet (expectOp ch) := by
  refine quiet_peek.bind fun t => ?_
  split
  · exact quiet_advance.bind fun _ => quiet_pure ()
  · exact quiet_unexpected _

theorem quiet_ident (expected : String) : Quiet (ident expected) := by
  refine quiet_peek.bind fun t => ?_
  split
  · exact quiet_advance.bind fun _ => quiet_pure _
  · exact quiet_unexpected _

theorem quiet_label : Quiet label := by
  refine quiet_peek.bind fun t => ?_
  split
  · split
    · exact quiet_advance.bind fun _ => quiet_pure _
    · exact quiet_unexpected _
  · exact quiet_unexpected _

theorem quiet_ty : Quiet ty := by
  refine quiet_line.bind fun here => (quiet_ident _).bind fun name => ?_
  split
  · exact quiet_pure _
  · exact quiet_refuse _

/-! ### Blocks and lines -/

theorem safe_block (h : Sound d) (hfull : Complete d) :
    Safe d block fun _ d' => Sound d' ∧ Complete d' := by
  refine quiet_label.then h.reached fun name => (quiet_expectOp ':').then h.reached fun _ => ?_
  exact safe_extend_bind (safe_update (h.addBlock hfull name))

theorem safe_value (h : Sound d) (hi : d.fragment.Live i) (n : Slot) (t : Ty) :
    Safe d (value i n t) fun _ d' => Sound d' ∧ Feeds d d' ∧ d'.Has i n := by
  have hnumber : ∀ c, Safe d (do
      let v ← extend (·.addConstant c)
      update (·.setArg i n v)) fun _ d' => Sound d' ∧ Feeds d d' ∧ d'.Has i n := by
    intro c
    obtain ⟨hs, hfeeds, hfull⟩ := h.number hi n c
    exact safe_extend_bind (safe_update ⟨hs, hfeeds, .inl hfull⟩)
  refine quiet_line.then h.reached fun here => quiet_advance.then h.reached fun tok => ?_
  split
  · split
    · next name _ =>
      obtain ⟨hs, hfeeds⟩ := h.reference (r := ⟨i, n, t, name⟩) hi
      exact fun c => ⟨hs, hfeeds, .inr ⟨_, List.mem_cons_self, rfl, rfl⟩⟩
    · exact safe_refuse h.reached _
  · split
    · exact hnumber _
    · exact safe_refuse h.reached _
  · split
    · exact hnumber _
    · exact safe_refuse h.reached _
  · exact safe_refuse h.reached _

/-- The arguments that are read fill the positions from the first on, or wait for them. -/
theorem safe_arguments (start : Nat) (slots : List Slot) (h : Sound d) (hi : d.fragment.Live i) :
    Safe d (arguments start i slots) fun tys d' =>
      Sound d' ∧ Feeds d d' ∧ ∀ n ∈ slots.take tys.length, d'.Has i n := by
  induction slots generalizing d with
  | nil =>
    refine quiet_peek.then h.reached fun t => ?_
    split
    · exact safe_pure ⟨h, .refl d, by simp⟩
    · exact safe_pure ⟨h, .refl d, by simp⟩
    · exact safe_refuse h.reached _
  | cons slot slots ih =>
    have hmore : Safe d (do
        let t ← ty
        value i slot t
        return t :: (← arguments start i slots)) fun tys d' =>
          Sound d' ∧ Feeds d d' ∧ ∀ n ∈ (slot :: slots).take tys.length, d'.Has i n := by
      refine quiet_ty.then h.reached fun t => (safe_value h hi slot t).bind fun _ d₁ h₁ => ?_
      obtain ⟨hs₁, hfeeds₁, hhas⟩ := h₁
      refine (ih hs₁ (hfeeds₁.live hi)).bind fun tys d₂ h₂ => ?_
      obtain ⟨hs₂, hfeeds₂, hall⟩ := h₂
      refine safe_pure ⟨hs₂, hfeeds₁.trans hfeeds₂, fun n hn => ?_⟩
      rcases List.mem_cons.mp hn with rfl | hn
      · exact hfeeds₂.has hhas
      · exact hall n hn
    refine quiet_peek.then h.reached fun t => ?_
    split
    · exact safe_pure ⟨h, .refl d, by simp⟩
    · exact safe_pure ⟨h, .refl d, by simp⟩
    · dsimp only
      split
      · exact (quiet_expectOp ',').then h.reached fun _ => hmore
      · exact hmore

/-- What the reader does once an instruction has been started. -/
theorem safe_body {op : Opcode} (start : Nat) (result : Option Ty) (h : Sound d)
    (hi : d.fragment.Live i) (hop : (d.fragment.instr i).op = op)
    (hothers : ∀ j : InstrId, j.index < d.fragment.instrs.size → j ≠ i →
      ∀ n : Slot, n.val < (d.fragment.instr j).op.required → d.Has j n) :
    Safe d (do
      let args ← arguments start i (List.finRange 3)
      match Signature.check start op result args with
      | .error e => refuse e
      | .ok () => attempt (reserveLocal i op result args)) fun _ d' => Sound d' ∧ Complete d' := by
  refine (safe_arguments start _ h hi).bind fun tys d₁ h₁ => ?_
  obtain ⟨hs, hfeeds, hall⟩ := h₁
  split
  · exact safe_refuse hs.reached _
  · next hcheck =>
    have harity := (Signature.check_eq_ok_iff.mp (check_eq_ok.mp hcheck)).1
    have hop₁ : (d₁.fragment.instr i).op = op := (hfeeds.skeleton.op_eq i).trans hop
    have hfull : Complete d₁ := by
      intro j hj n hn
      by_cases hji : j = i
      · subst hji
        rw [hop₁] at hn
        have hlt : n.val < tys.length := Nat.lt_of_lt_of_le hn (required_le_of_arityOk harity)
        refine hall n (List.mem_take_iff_getElem.mpr ⟨n.val, ?_, ?_⟩)
        · simpa using hlt
        · simp
      · rw [hfeeds.skeleton.links.size_instrs] at hj
        rw [hfeeds.skeleton.op_eq] at hn
        exact hfeeds.has (hothers j hj hji n hn)
    obtain ⟨hmade, hfails⟩ := hs.reserve (hfeeds.live hi) hop₁ result tys
    refine safe_attempt hs.reached (fun f hf => ?_) hfails
    obtain ⟨hs', hfeeds'⟩ := hmade f hf
    exact ⟨hs', hfeeds'.complete hfull⟩

theorem safe_instr (h : Sound d) (hfull : Complete d) :
    Safe d instr fun _ d' => Sound d' ∧ Complete d' := by
  refine quiet_line.then h.reached fun start => (quiet_ident _).then h.reached fun first => ?_
  dsimp only
  split
  · next t _ =>
    refine quiet_label.then h.reached fun name => (quiet_expectOp '=').then h.reached fun _ =>
      (quiet_ident _).then h.reached fun word => safe_pure_bind ?_
    dsimp only
    split
    · exact safe_refuse h.reached _
    · next op _ =>
      obtain ⟨hs, hi, hop, hothers⟩ := h.addInstr hfull op (some (t, name))
      exact safe_extend_bind (safe_update_bind (safe_body start _ hs hi hop hothers))
  · refine safe_pure_bind ?_
    dsimp only
    split
    · exact safe_refuse h.reached _
    · next op _ =>
      obtain ⟨hs, hi, hop, hothers⟩ := h.addInstr hfull op none
      exact safe_extend_bind (safe_body start _ hs hi hop hothers)

theorem safe_items (fuel : Nat) (h : Sound d) (hfull : Complete d) :
    Safe d (items fuel) fun _ d' => Sound d' ∧ Complete d' := by
  induction fuel generalizing d with
  | zero => exact safe_pure ⟨h, hfull⟩
  | succ fuel ih =>
    have hblock := (safe_block h hfull).bind (k := fun _ => items fuel) fun _ _ h₁ => ih h₁.1 h₁.2
    have hinstr := (safe_instr h hfull).bind (k := fun _ => items fuel) fun _ _ h₁ => ih h₁.1 h₁.2
    refine quiet_peek.then h.reached fun t => ?_
    split
    · exact safe_pure ⟨h, hfull⟩
    · exact quiet_advance.then h.reached fun _ => ih h hfull
    · dsimp only
      split
      · exact hblock
      · exact hinstr
    · exact hinstr

/-! ### References -/

/-- A reference that names something fills its position. -/
theorem safe_resolve {blocks : Std.HashMap String BlockId} {results : Std.HashMap String ValueId}
    {r : Reference} (h : Sound d) (hi : d.fragment.Live r.instr)
    (hresults : ∀ (name : String) (v : ValueId), results[name]? = some v →
      v.index < d.fragment.values.size) :
    Safe d (resolve blocks results r) fun _ d' => Sound d' ∧ Feeds d d' ∧
      ((d'.fragment.instr r.instr).arg r.slot).isSome := by
  unfold resolve
  split
  · split
    · exact safe_refuse h.reached _
    · next b _ =>
      have hedge : Sound { d with fragment := (if (d.fragment.instr r.instr).op.isBranch then
            d.fragment.addEdge (d.fragment.instr r.instr).block b else d.fragment) } ∧
          Feeds d { d with fragment := (if (d.fragment.instr r.instr).op.isBranch then
            d.fragment.addEdge (d.fragment.instr r.instr).block b else d.fragment) } := by
        split
        · exact h.edge hi b
        · exact ⟨h, .refl d⟩
      obtain ⟨hs, hfeeds⟩ := hedge
      obtain ⟨hs', hfeeds', hfilled⟩ := hs.number (hfeeds.live hi) r.slot (.blk b)
      exact safe_update_bind (safe_extend_bind (safe_update ⟨hs', hfeeds.trans hfeeds', hfilled⟩))
  · split
    · exact safe_refuse h.reached _
    · next v hv =>
      obtain ⟨hs, hfeeds, hfilled⟩ := h.arg hi (hresults _ v hv) r.slot
      refine safe_get_bind fun s hs' => ?_
      rw [hs']
      dsimp only
      split
      · exact fun _ => h.reached
      · exact safe_update ⟨hs, hfeeds, hfilled⟩

theorem safe_resolveAll {blocks : Std.HashMap String BlockId}
    {results : Std.HashMap String ValueId} {rs : List Reference} (h : Sound d)
    (hrs : ∀ r ∈ rs, d.fragment.Live r.instr)
    (hresults : ∀ (name : String) (v : ValueId), results[name]? = some v →
      v.index < d.fragment.values.size) :
    Safe d (rs.forM (resolve blocks results)) fun _ d' => Sound d' ∧ Feeds d d' ∧
      ∀ r ∈ rs, ((d'.fragment.instr r.instr).arg r.slot).isSome := by
  induction rs generalizing d with
  | nil => exact safe_pure ⟨h, .refl d, by simp⟩
  | cons r rs ih =>
    refine (safe_resolve h (hrs r (by simp)) hresults).bind fun _ d₁ h₁ => ?_
    obtain ⟨hs, hfeeds, hfilled⟩ := h₁
    refine (ih hs (fun r' hr' => hfeeds.live (hrs r' (by simp [hr']))) fun name v hv =>
      Nat.lt_of_lt_of_le (hresults name v hv) hfeeds.skeleton.values_le).mono fun _ d₂ h₂ => ?_
    obtain ⟨hs₂, hfeeds₂, hall⟩ := h₂
    refine ⟨hs₂, hfeeds.trans hfeeds₂, fun r' hr' => ?_⟩
    rcases List.mem_cons.mp hr' with rfl | hr'
    · exact hfeeds₂.args _ _ hfilled
    · exact hall r' hr'

/-- Every position that an operation requires is filled. -/
def Filled (f : Fragment) : Prop :=
  ∀ i : InstrId, i.index < f.instrs.size →
    ∀ n : Slot, n.val < (f.instr i).op.required → ((f.instr i).arg n).isSome

theorem safe_program (fuel : Nat) : Safe {} (program fuel) fun _ d => Sound d ∧
    Filled d.fragment := by
  refine (safe_items fuel sound_empty complete_empty).bind fun _ d h => ?_
  obtain ⟨hs, hfull⟩ := h
  have hresolve : Safe d (d.references.reverse.forM
      (resolve (blockNames d.fragment) (resultNames d.fragment))) fun _ d' =>
        Sound d' ∧ Filled d'.fragment := by
    refine (safe_resolveAll hs (fun r hr => hs.pending r (List.mem_reverse.mp hr))
      fun name v hv => ?_).mono fun _ d' h' => ?_
    · obtain ⟨i, -, -, hresult⟩ := label_of_resultNames hv
      exact hs.consistent.result_lt i v hresult
    · obtain ⟨hs', hfeeds, hall⟩ := h'
      refine ⟨hs', fun i hi n hn => ?_⟩
      rw [hfeeds.skeleton.links.size_instrs] at hi
      rw [hfeeds.skeleton.op_eq] at hn
      rcases hfull i hi n hn with hfilled | ⟨r, hr, rfl, rfl⟩
      · exact hfeeds.args _ _ hfilled
      · exact hall r (List.mem_reverse.mpr hr)
  exact fun c => hresolve c

/-! ### The reader gets on -/

variable {c c' c'' : Cursor} {d' : Draft}

/-- The tokens from the cursor on come to an end. -/
def Cursor.Closed (c : Cursor) : Prop := Token.Closed (.ok c.current :: c.rest)

/-- The cursor has come closer to the end. -/
structure Cursor.Before (c c' : Cursor) : Prop where
  closed : c'.Closed
  less : c'.rest.length < c.rest.length

theorem Cursor.Before.trans (h : c.Before c') (h' : c'.Before c'') : c.Before c'' :=
  ⟨h'.closed, h'.less.trans h.less⟩

/-- Only the end repeats. -/
theorem Cursor.Closed.before (h : c.Closed) (hc : c.next? = some c')
    (hmore : c.current.token ≠ .eof) :
    c.Before c' := by
  obtain ⟨cur, rest⟩ := c
  cases rest with
  | nil =>
    obtain ⟨x, hx, heof⟩ := h
    cases hx
    exact absurd (heof cur rfl) hmore
  | cons t rest =>
    cases t with
    | error e => cases hc
    | ok t =>
      cases hc
      exact ⟨h.tail, Nat.lt_succ_self _⟩

theorem before_block (h : c.Closed) (hb : Reads block d c () d' c') : c.Before c' := by
  obtain ⟨s, name, c₁, ht, -, hc, ht', hc', -⟩ := reads_block.mp hb
  have h₁ := h.before hc (by simp [ht])
  exact h₁.trans (h₁.closed.before hc' (by simp [ht']))

theorem before_head {op : Opcode} {result : Option (Ty × String)} (h : c.Closed)
    (hhead : TakesHead c op c' result) : c.Before c' := by
  cases result with
  | none =>
    obtain ⟨s, ht, -, -, hc⟩ := hhead
    exact h.before hc (by simp [ht])
  | some r =>
    obtain ⟨s, s', s'', c₁, c₂, c₃, ht, -, hc, ht', -, hc', ht'', hc'', ht₃, -, hc₃⟩ := hhead
    have h₁ := h.before hc (by simp [ht])
    have h₂ := h₁.trans (h₁.closed.before hc' (by simp [ht']))
    have h₃ := h₂.trans (h₂.closed.before hc'' (by simp [ht'']))
    exact h₃.trans (h₃.closed.before hc₃ (by simp [ht₃]))

theorem closed_args {slots : List Slot} {os : List Operand} (hargs : TakesArgs slots c os c')
    (h : c.Closed) : c'.Closed ∧ c'.rest.length ≤ c.rest.length := by
  induction hargs with
  | nil => exact ⟨h, Nat.le_refl _⟩
  | @cons slot slots o os s c c₁ c₂ c₃ c' more comma word ty next₁ spells next₂ tail ih =>
    have hcomma : c₁.Closed ∧ c₁.rest.length ≤ c.rest.length := by
      split at comma
      · rw [comma]
        exact ⟨h, Nat.le_refl _⟩
      · have h₁ := h.before comma.2 (by simp [comma.1])
        exact ⟨h₁.closed, Nat.le_of_lt h₁.less⟩
    have h₂ := hcomma.1.before next₁ (by simp [word])
    have hvalue : c₂.current.token ≠ .eof := by
      intro he
      rw [he] at spells
      cases o <;> exact spells.elim
    have h₃ := h₂.trans (h₂.closed.before next₂ hvalue)
    obtain ⟨hclosed, hle⟩ := ih h₃.closed
    exact ⟨hclosed, hle.trans ((Nat.le_of_lt h₃.less).trans hcomma.2)⟩

theorem before_instr (h : c.Closed) (hi : Reads instr d c () d' c') : c.Before c' := by
  obtain ⟨l, c₁, hhead, hargs, -⟩ := reads_instr.mp hi
  have h₁ := before_head h hhead
  obtain ⟨hclosed, hle⟩ := closed_args hargs h₁.closed
  exact ⟨hclosed, Nat.lt_of_le_of_lt hle h₁.less⟩

/-- Behind an action that gets on, it does not matter how many items may follow. -/
theorem run_then_items {p : Parse α} {fuel : Nat}
    (hp : ∀ a d' c', Reads p d c a d' c' → c.Before c')
    (ih : ∀ d' c', c.Before c' → (items fuel).run (State.of d' c') =
      (items (fuel + 1)).run (State.of d' c')) :
    (p >>= fun _ => items fuel).run (State.of d c) =
      (p >>= fun _ => items (fuel + 1)).run (State.of d c) := by
  rw [run_bind, run_bind]
  cases hrun : p.run (State.of d c) with
  | mk x s =>
    cases x with
    | error e => rfl
    | ok a =>
      have hreads : Reads p d c a ⟨s.fragment, s.references⟩ ⟨s.current, s.rest⟩ := hrun
      exact ih ⟨s.fragment, s.references⟩ ⟨s.current, s.rest⟩ (hp _ _ _ hreads)

/-- How many items may be read at most is never what ends the reading. -/
theorem items_succ {fuel : Nat} (h : c.Closed) (hfuel : c.rest.length < fuel) :
    (items fuel).run (State.of d c) = (items (fuel + 1)).run (State.of d c) := by
  induction fuel generalizing d c with
  | zero => exact absurd hfuel (Nat.not_lt_zero _)
  | succ fuel ih =>
    have hrest : ∀ d' c', c.Before c' → (items fuel).run (State.of d' c') =
        (items (fuel + 1)).run (State.of d' c') :=
      fun d' c' hc' => ih hc'.closed (Nat.lt_of_lt_of_le hc'.less (Nat.le_of_lt_succ hfuel))
    have hblock := run_then_items (d := d) (fun _ _ _ => before_block h) hrest
    have hinstr := run_then_items (d := d) (fun _ _ _ => before_instr h) hrest
    have hpeek : ∀ k : Token → Parse Unit, (peek >>= k).run (State.of d c) =
        (k c.current.token).run (State.of d c) := fun _ => rfl
    rw [items, items, hpeek, hpeek]
    cases ht : c.current.token with
    | eof => rfl
    | eol =>
      refine run_then_items (fun t d' c' hr => ?_) hrest
      obtain ⟨-, -, hnext⟩ := reads_advance.mp hr
      exact h.before hnext (by simp [ht])
    | ident s =>
      dsimp only
      split
      · exact hblock
      · exact hinstr
    | _ => exact hinstr

theorem items_eq {fuel fuel' : Nat} (h : c.Closed) (hfuel : c.rest.length < fuel)
    (hle : fuel ≤ fuel') : (items fuel').run (State.of d c) = (items fuel).run (State.of d c) := by
  induction fuel', hle using Nat.le_induction with
  | base => rfl
  | succ fuel' hle ih => rw [← items_succ h (Nat.lt_of_lt_of_le hfuel hle), ih]

theorem program_eq {fuel fuel' : Nat} (h : c.Closed) (hfuel : c.rest.length < fuel)
    (hfuel' : c.rest.length < fuel') :
    (program fuel).run (State.of d c) = (program fuel').run (State.of d c) := by
  unfold program
  rw [run_bind, run_bind]
  rcases Nat.le_total fuel fuel' with hle | hle
  · rw [items_eq h hfuel hle]
  · rw [items_eq h hfuel' hle]

/-! ### Texts -/

/-- Reading with a bound on the numbers of tokens and items. -/
def parseWithin (fuel : Nat) (src : String) : Except (Stop × Fragment) Fragment :=
  match Token.stream fuel src.toList 1 with
  | [] => .ok .empty
  | .error e :: _ => .error (.refused e, .empty)
  | .ok t :: rest =>
    match (program fuel).run { current := t, rest } with
    | (.ok (), s) => .ok s.fragment
    | (.error e, s) => .error (e, s.fragment)

/-- The bound does not matter: reading ends by itself. -/
theorem parseWithin_eq {fuel : Nat} {src : String} (h : src.toList.length < fuel) :
    parseWithin fuel src = parse src := by
  have hstream : Token.stream fuel src.toList 1 = Token.scan src.toList :=
    Token.stream_eq h (Nat.lt_succ_self _)
  have hclosed : Token.Closed (Token.scan src.toList) := Token.stream_closed (Nat.lt_succ_self _)
  have hlen : (Token.scan src.toList).length ≤ src.toList.length + 1 := Token.length_stream_le _
  unfold parseWithin parse
  rw [hstream]
  cases hscan : Token.scan src.toList with
  | nil => rfl
  | cons t rest =>
    cases t with
    | error e => rfl
    | ok t =>
      rw [hscan] at hclosed hlen
      simp only [List.length_cons] at hlen
      have hprogram := program_eq (d := {}) (c := ⟨t, rest⟩) hclosed
        (show rest.length < fuel by omega)
        (show rest.length <
        (Except.ok t :: rest : List (Except ParseError Token.Placed)).length + 1 by
          simp only [List.length_cons]; omega)
      dsimp only
      rw [show (program fuel).run { current := t, rest } = _ from hprogram]
      rfl

/-- What may come of a text. -/
def Fair : Except (Stop × Fragment) Fragment → Prop
  | .ok f => Reached f ∧ Filled f ∧ ∀ s ∈ f.locals, s.offset + s.ty.bytes ≤ maxLocalsSize
  | .error (.refused _, f) => Reached f
  | .error (.faulted e, f) => Reached f ∧ e = .overflow ∧ Overruns f

theorem fair_parse (src : String) : Fair (parse src) := by
  unfold parse
  dsimp only
  split
  · exact ⟨.empty, fun _ hi => absurd hi (Nat.not_lt_zero _), fun _ hs =>
      absurd hs (by simp [Fragment.empty])⟩
  · exact .empty
  · next t rest _ =>
    have hsafe := safe_program ((Token.scan src.toList).length + 1) ⟨t, rest⟩
    cases hrun : (program ((Token.scan src.toList).length + 1)).run { current := t, rest } with
    | mk x s =>
      rw [show (program ((Token.scan src.toList).length + 1)).run (State.of {} ⟨t, rest⟩) = (x, s)
        from hrun] at hsafe
      cases x with
      | ok a => exact ⟨hsafe.1.reached, hsafe.2, hsafe.1.slots⟩
      | error e => cases e <;> exact hsafe

/-- Reading ends whatever the bytes are, and all that it does to the fragment are requests that are
allowed and do not fault. If it succeeds, every position that an operation requires is filled and
use lists say exactly what positions refer to. If not, there is an error, or else a slot overflows:
that of an access to local memory too close to the largest offset. -/
theorem parseBytes_outcome (bytes : ByteArray) :
    (∀ src, String.fromUTF8? bytes = some src → ∀ fuel, src.toList.length < fuel →
      parseWithin fuel src = parse src) ∧
    match parseBytes bytes with
    | .ok f => (∃ rs, Serves empty rs f) ∧
        (∀ i : InstrId, i.index < f.instrs.size →
          ∀ n : Slot, n.val < (f.instr i).op.required → ((f.instr i).arg n).isSome) ∧
        (∀ i n v, (f.instr i).arg n = some v ↔ (⟨i, n⟩ : Use) ∈ (f.value v).uses) ∧
        (∀ v, (f.value v).uses.Nodup) ∧
        ∀ s ∈ f.locals, s.offset + s.ty.bytes ≤ maxLocalsSize
    | .error (.refused _, f) => ∃ rs, Serves empty rs f
    | .error (.faulted e, f) => (∃ rs, Serves empty rs f) ∧ e = .overflow ∧ Overruns f := by
  have hfair : Fair (parseBytes bytes) := by
    unfold parseBytes
    split
    · exact fair_parse _
    · exact .empty
  refine ⟨fun src _ fuel hfuel => parseWithin_eq hfuel, ?_⟩
  split
  · next f hf =>
    rw [hf] at hfair
    obtain ⟨hreached, hfilled, hslots⟩ := hfair
    exact ⟨hreached, hfilled, fun i n v => (hreached.linked.uses v ⟨i, n⟩).symm,
      hreached.linked.uses_nodup, hslots⟩
  · next e f hf =>
    rw [hf] at hfair
    exact hfair
  · next e f hf =>
    rw [hf] at hfair
    exact hfair

/-- A load from the largest offset is neither read nor refused: the end of its slot overflows. -/
theorem parseBytes_overflow : ∃ f,
    parseBytes "i32 %0 = load_local i32 0x7fffffff\n".toUTF8 = .error (.faulted .overflow, f) := by
  have hfault : (match parseBytes "i32 %0 = load_local i32 0x7fffffff\n".toUTF8 with
      | .error (.faulted .overflow, _) => true
      | _ => false) = true := by decide +kernel
  split at hfault
  · next f h => exact ⟨f, h⟩
  · cases hfault

end Parser
end Recompiler.IR
