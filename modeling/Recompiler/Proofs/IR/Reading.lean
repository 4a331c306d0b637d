import Recompiler.Proofs.IR.Scanning
import Recompiler.IR.Parser

/-!
What the reader does, token by token: a heading or a line adds a block or an instruction to a draft,
and references are resolved at the end.
-/
namespace Recompiler.IR

/-! ### Types of a line -/

namespace Signature

theorem firstBad?_eq_none {op : Opcode} {args tys : List Ty} {k : Nat} :
    firstBad? op args k tys = none ↔ ∀ n t, tys[n]? = some t →
      accepts op args (k + n) t = true := by
  induction tys generalizing k with
  | nil => simp [firstBad?]
  | cons t tys ih =>
    rw [firstBad?]
    split
    · next h =>
      rw [ih]
      constructor
      · intro hall n t' ht'
        cases n with
        | zero =>
          cases ht'
          exact h
        | succ n =>
          rw [Nat.add_comm n, ← Nat.add_assoc]
          exact hall n t' ht'
      · intro hall n t' ht'
        rw [Nat.add_assoc, Nat.add_comm 1]
        exact hall (n + 1) t' ht'
    · next h =>
      refine iff_of_false (by simp) fun hall => h (hall 0 t rfl)

theorem check_eq_ok_iff {op : Opcode} {result : Option Ty} {args : List Ty} :
    check 0 op result args = .ok () ↔ arityOk op args.length = true ∧
      op.hasResult = result.isSome ∧
      ∀ n t, args[n]? = some t → accepts op args n t = true := by
  have hbad : firstBad? op args 0 args = none ↔ ∀ n t, args[n]? = some t →
    accepts op args n t = true := by
    simpa only [Nat.zero_add] using firstBad?_eq_none (k := 0)
  rw [← hbad]
  unfold check
  cases arityOk op args.length <;> cases op.hasResult <;> cases result <;>
    cases firstBad? op args 0 args <;> simp

/-- A text could only be accepted next to another one. -/
theorem accepts_str {op : Opcode} {args : List Ty} {n : Nat} (h : accepts op args n .str = true) :
    0 < n ∧ args[n - 1]? = some .str := by
  unfold accepts at h
  split at h
  all_goals first
    | exact absurd h (by decide)
    | exact ⟨by omega, beq_iff_eq.mp h⟩
    | (split at h <;> exact absurd h (by decide))

/-- No operation takes a text. -/
theorem not_accepts_str {op : Opcode} {args : List Ty}
    (h : ∀ n t, args[n]? = some t → accepts op args n t = true) : Ty.str ∉ args := by
  have hall : ∀ n : Nat, args[n]? ≠ some Ty.str := by
    intro n
    induction n with
    | zero =>
      intro hn
      exact absurd (accepts_str (h 0 _ hn)).1 (by simp)
    | succ n ih =>
      intro hn
      exact ih (accepts_str (h _ _ hn)).2
  intro hm
  obtain ⟨n, hn⟩ := List.getElem?_of_mem hm
  exact hall n hn

end Signature

/-- The types of a line are those that its operation accepts. -/
def Line.Typed (l : Line) : Prop :=
  Signature.check 0 l.op (l.result.map (·.1)) (l.args.map (·.ty)) = .ok ()

theorem Line.Typed.ne_str {l : Line} (h : l.Typed) {o : Operand} (ho : o ∈ l.args) :
    o.ty ≠ .str := by
  intro he
  exact Signature.not_accepts_str (Signature.check_eq_ok_iff.mp h).2.2
    (he ▸ List.mem_map_of_mem ho)

theorem Line.Typed.length_args_le {l : Line} (h : l.Typed) : l.args.length ≤ 3 := by
  have harity := (Signature.check_eq_ok_iff.mp h).1
  have hle : ∀ op : Opcode, op.info.arity ≤ 3 := by
    intro op
    cases op <;> decide
  rw [List.length_map] at harity
  unfold Signature.arityOk at harity
  split at harity
  · simp only [Bool.and_eq_true, decide_eq_true_eq] at harity
    exact harity.2.trans (hle l.op)
  · rw [beq_iff_eq.mp harity]
    exact hle l.op

/-! ### Items -/

/-- A heading or a line. -/
inductive Item where
  | block (name : String)
  | instr (l : Line)

namespace Item

/-- The item can be written and is accepted when it is read. -/
def Valid : Item → Prop
  | block name => IsLabel name
  | instr l => l.Lexical ∧ l.Typed

def tokens : Item → List Token
  | block name => [labelToken name, .op ':']
  | instr l => l.tokens

end Item

/-- A paragraph as a list of items. -/
def Paragraph.items (p : Paragraph) : List Item := .block p.name :: p.lines.map .instr

namespace Parser

/-! ### Drafts and cursors -/

/-- What has been read: the fragment so far, and its open references, latest first. -/
structure Draft where
  fragment : Fragment := .empty
  references : List Reference := []

/-- The token under the reader, and those after it. -/
structure Cursor where
  current : Token.Placed
  rest : List (Except ParseError Token.Placed)

/-- The cursor past the current token. The end repeats. -/
def Cursor.next? (c : Cursor) : Option Cursor :=
  match c.rest with
  | [] => some c
  | .error _ :: _ => none
  | .ok t :: rest => some ⟨t, rest⟩

def State.of (d : Draft) (c : Cursor) : State := ⟨d.fragment, c.current, c.rest, d.references⟩

variable {α β : Type} {p : Parse α} {k : α → Parse β} {a a' : α} {b : β}
  {d d' d'' : Draft} {c c' c'' : Cursor}

/-- The action returns `a` and leaves the second draft and cursor. -/
def Reads (p : Parse α) (d : Draft) (c : Cursor) (a : α) (d' : Draft) (c' : Cursor) : Prop :=
  p.run (State.of d c) = (.ok a, State.of d' c')

theorem run_bind (s : State) : (p >>= k).run s =
    match p.run s with
    | (.ok a, s) => (k a).run s
    | (.error e, s) => (.error e, s) := by
  cases hp : p.run s with
  | mk x s' =>
    change (ExceptT.bindCont k (p.run s).1) (p.run s).2 = _
    rw [hp]
    cases x <;> rfl

theorem reads_bind : Reads (p >>= k) d c b d'' c'' ↔
    ∃ a d' c', Reads p d c a d' c' ∧ Reads (k a) d' c' b d'' c'' := by
  unfold Reads
  rw [run_bind]
  constructor
  · intro h
    split at h
    · next a s hp => exact ⟨a, ⟨s.fragment, s.references⟩, ⟨s.current, s.rest⟩, hp, h⟩
    · cases h
  · rintro ⟨a, d', c', hp, hk⟩
    rw [hp]
    exact hk

theorem State.of_inj : State.of d c = State.of d' c' ↔ d = d' ∧ c = c' := by
  constructor
  · intro h
    obtain ⟨f, r⟩ := d
    obtain ⟨f', r'⟩ := d'
    obtain ⟨t, l⟩ := c
    obtain ⟨t', l'⟩ := c'
    cases h
    exact ⟨rfl, rfl⟩
  · rintro ⟨rfl, rfl⟩
    rfl

theorem reads_pure {x y : α} : Reads (pure x) d c y d' c' ↔ x = y ∧ d = d' ∧ c = c' := by
  unfold Reads
  change ((Except.ok x : Except Stop α), State.of d c) = _ ↔ _
  rw [Prod.mk.injEq, Except.ok.injEq, State.of_inj]

theorem reads_throw {e : Stop} : ¬ Reads (throw e : Parse α) d c a d' c' := by
  intro h
  cases h

theorem reads_refuse {e : ParseError} : ¬ Reads (refuse e : Parse α) d c a d' c' := reads_throw

theorem reads_peek {t : Token} : Reads peek d c t d' c' ↔ c.current.token = t ∧ d = d' ∧ c = c' :=
  reads_pure (x := c.current.token) (y := t)

theorem reads_peek_bind {k : Token → Parse β} :
    Reads (peek >>= k) d c b d' c' ↔ Reads (k c.current.token) d c b d' c' := by
  rw [reads_bind]
  constructor
  · rintro ⟨t, d₁, c₁, h₁, h⟩
    obtain ⟨rfl, rfl, rfl⟩ := reads_peek.mp h₁
    exact h
  · intro h
    exact ⟨_, _, _, reads_peek.mpr ⟨rfl, rfl, rfl⟩, h⟩

theorem reads_line {n : Nat} : Reads line d c n d' c' ↔ c.current.line = n ∧ d = d' ∧ c = c' :=
  reads_pure (x := c.current.line) (y := n)

theorem reads_get {s : State} : Reads (get : Parse State) d c s d' c' ↔
    State.of d c = s ∧ d = d' ∧ c = c' :=
  reads_pure (x := State.of d c) (y := s)

theorem reads_unexpected {expected : String} :
    ¬ Reads (unexpected expected : Parse α) d c a d' c' := by
  intro h
  cases h

theorem reads_advance {t : Token} :
    Reads advance d c t d' c' ↔ c.current.token = t ∧ d = d' ∧ c.next? = some c' := by
  obtain ⟨cur, rest⟩ := c
  cases rest with
  | nil =>
    refine (reads_pure (x := cur.token) (y := t)).trans ?_
    simp [Cursor.next?]
  | cons x rest =>
    cases x with
    | error e =>
      refine iff_of_false (fun h => ?_) fun h => ?_
      · cases h
      · cases h.2.2
    | ok t' =>
      refine (reads_pure (x := cur.token) (y := t) (c := ⟨t', rest⟩)).trans ?_
      simp [Cursor.next?]

theorem reads_expectOp {ch : Char} :
    Reads (expectOp ch) d c () d' c' ↔ c.current.token = .op ch ∧ d = d' ∧ c.next? = some c' := by
  unfold expectOp
  rw [reads_bind]
  constructor
  · rintro ⟨t, d₁, c₁, h₁, h⟩
    obtain ⟨rfl, rfl, rfl⟩ := reads_peek.mp h₁
    split at h
    · next ht =>
      obtain ⟨t, d₂, c₂, h₂, h⟩ := reads_bind.mp h
      obtain ⟨-, rfl, hc⟩ := reads_advance.mp h₂
      obtain ⟨-, rfl, rfl⟩ := reads_pure.mp h
      exact ⟨by simpa using ht, rfl, hc⟩
    · exact absurd h reads_unexpected
  · rintro ⟨ht, rfl, hc⟩
    refine ⟨_, _, _, reads_peek.mpr ⟨rfl, rfl, rfl⟩, ?_⟩
    rw [if_pos (by simpa using ht)]
    exact reads_bind.mpr ⟨_, _, _, reads_advance.mpr ⟨rfl, rfl, hc⟩, reads_pure.mpr ⟨rfl, rfl, rfl⟩⟩

/-- The token is passed, and something is returned. -/
theorem reads_pass :
    Reads (do let _ ← advance; return a) d c a' d' c' ↔ a = a' ∧ d = d' ∧ c.next? = some c' := by
  rw [reads_bind]
  constructor
  · rintro ⟨t, d₁, c₁, h₁, h⟩
    obtain ⟨-, rfl, hc⟩ := reads_advance.mp h₁
    obtain ⟨rfl, rfl, rfl⟩ := reads_pure.mp h
    exact ⟨rfl, rfl, hc⟩
  · rintro ⟨rfl, rfl, hc⟩
    exact ⟨_, _, _, reads_advance.mpr ⟨rfl, rfl, hc⟩, reads_pure.mpr ⟨rfl, rfl, rfl⟩⟩

theorem reads_ident {expected s : String} :
    Reads (ident expected) d c s d' c' ↔ c.current.token = .ident s ∧ d = d' ∧
      c.next? = some c' := by
  unfold ident
  rw [reads_bind]
  constructor
  · rintro ⟨t, d₁, c₁, h₁, h⟩
    obtain ⟨ht, rfl, rfl⟩ := reads_peek.mp h₁
    split at h
    · obtain ⟨rfl, rfl, hc⟩ := reads_pass.mp h
      exact ⟨ht, rfl, hc⟩
    · exact absurd h reads_unexpected
  · rintro ⟨ht, rfl, hc⟩
    exact ⟨_, _, _, reads_peek.mpr ⟨ht, rfl, rfl⟩, reads_pass.mpr ⟨rfl, rfl, hc⟩⟩

theorem reads_label {name : String} :
    Reads label d c name d' c' ↔ ∃ s, c.current.token = .ident s ∧ labelName? s = some name ∧
      d = d' ∧ c.next? = some c' := by
  unfold label
  rw [reads_bind]
  constructor
  · rintro ⟨t, d₁, c₁, h₁, h⟩
    obtain ⟨ht, rfl, rfl⟩ := reads_peek.mp h₁
    split at h
    · next s =>
      split at h
      · next hs =>
        obtain ⟨rfl, rfl, hc⟩ := reads_pass.mp h
        exact ⟨s, ht, hs, rfl, hc⟩
      · exact absurd h reads_unexpected
    · exact absurd h reads_unexpected
  · rintro ⟨s, ht, hs, rfl, hc⟩
    refine ⟨_, _, _, reads_peek.mpr ⟨ht, rfl, rfl⟩, ?_⟩
    dsimp only
    rw [hs]
    exact reads_pass.mpr ⟨rfl, rfl, hc⟩

theorem reads_ty {t : Ty} :
    Reads ty d c t d' c' ↔ ∃ s, c.current.token = .ident s ∧ Ty.ofName? s = some t ∧
      d = d' ∧ c.next? = some c' := by
  unfold ty
  rw [reads_bind]
  constructor
  · rintro ⟨n, d₁, c₁, h₁, h⟩
    obtain ⟨-, rfl, rfl⟩ := reads_line.mp h₁
    obtain ⟨s, d₂, c₂, h₂, h⟩ := reads_bind.mp h
    obtain ⟨ht, rfl, hc⟩ := reads_ident.mp h₂
    split at h
    · next hs =>
      obtain ⟨rfl, rfl, rfl⟩ := reads_pure.mp h
      exact ⟨s, ht, hs, rfl, hc⟩
    · exact absurd h reads_refuse
  · rintro ⟨s, ht, hs, rfl, hc⟩
    refine ⟨_, _, _, reads_line.mpr ⟨rfl, rfl, rfl⟩, reads_bind.mpr
      ⟨_, _, _, reads_ident.mpr ⟨ht, rfl, hc⟩, ?_⟩⟩
    rw [hs]
    exact reads_pure.mpr ⟨rfl, rfl, rfl⟩

theorem reads_update {g : Fragment → Fragment} : Reads (update g) d c () d' c' ↔
    { d with fragment := g d.fragment } = d' ∧ c = c' :=
  (reads_pure (x := ()) (y := ()) (d := { d with fragment := g d.fragment })).trans (by simp)

theorem reads_extend {g : Fragment → Fragment × α} : Reads (extend g) d c a d' c' ↔
    (g d.fragment).2 = a ∧ { d with fragment := (g d.fragment).1 } = d' ∧ c = c' :=
  reads_pure (x := (g d.fragment).2) (d := { d with fragment := (g d.fragment).1 })

theorem reads_attempt {g : Fragment → Except Fault Fragment} : Reads (attempt g) d c () d' c' ↔
    ∃ f, g d.fragment = .ok f ∧ { d with fragment := f } = d' ∧ c = c' := by
  unfold attempt
  rw [reads_bind]
  constructor
  · rintro ⟨s, d₁, c₁, h₁, h⟩
    obtain ⟨rfl, rfl, rfl⟩ := reads_get.mp h₁
    split at h
    · next f hf => exact ⟨f, hf, reads_update.mp h⟩
    · exact absurd h reads_throw
  · rintro ⟨f, hf, rfl, rfl⟩
    refine ⟨_, _, _, reads_get.mpr ⟨rfl, rfl, rfl⟩, ?_⟩
    rw [show g (State.of d c).fragment = .ok f from hf]
    exact reads_update.mpr ⟨rfl, rfl⟩

/-! ### Items -/

namespace Draft

/-- Fill a position with what is written there. References stay open. -/
def addOperand (d : Draft) (i : InstrId) (slot : Slot) : Operand → Draft
  | .reference ty name => { d with references := ⟨i, slot, ty, name⟩ :: d.references }
  | .constant k =>
    { d with fragment := (d.fragment.addConstant k).1.setArg i slot (d.fragment.addConstant k).2 }

def addOperands (d : Draft) (i : InstrId) (args : List (Slot × Operand)) : Draft :=
  args.foldl (fun d p => d.addOperand i p.1 p.2) d

/-- Add an instruction at the insert point, with the label of its result. -/
def addInstr (d : Draft) (op : Opcode) (result : Option (Ty × String)) : Draft :=
  let (f, i) := d.fragment.appendInstr op (result.map (·.1))
  match result with
  | some (_, name) => { d with fragment := f.setInstrLabel i name }
  | none => { d with fragment := f }

/-- Add a line at the insert point, up to the local slot that it accesses. -/
def addCode (d : Draft) (l : Line) : Draft :=
  (d.addInstr l.op l.result).addOperands (d.fragment.appendInstr l.op (l.result.map (·.1))).2
    ((List.finRange 3).zip l.args)

/-- The fragment with the slot that a line accesses. -/
def slotted (d : Draft) (l : Line) : Except Fault Fragment :=
  reserveLocal (d.fragment.appendInstr l.op (l.result.map (·.1))).2 l.op (l.result.map (·.1))
    (l.args.map (·.ty)) (d.addCode l).fragment

/-- Add a line at the insert point. A slot that cannot be is left out. -/
def addLine (d : Draft) (l : Line) : Draft :=
  { d.addCode l with
    fragment := match d.slotted l with
      | .ok f => f
      | .error _ => (d.addCode l).fragment }

/-- Start a block. -/
def addBlock (d : Draft) (name : String) : Draft :=
  let (f, b) := d.fragment.appendBlock
  { d with fragment := (f.setBlockLabel b name).atEndOf b }

end Draft

theorem reads_block : Reads block d c () d' c' ↔ ∃ s name c₁, c.current.token = .ident s ∧
    labelName? s = some name ∧ c.next? = some c₁ ∧ c₁.current.token = .op ':' ∧
    c₁.next? = some c' ∧ d.addBlock name = d' := by
  unfold block
  rw [reads_bind]
  constructor
  · rintro ⟨name, d₁, c₁, h₁, h⟩
    obtain ⟨s, ht, hs, rfl, hc⟩ := reads_label.mp h₁
    obtain ⟨_, d₂, c₂, h₂, h⟩ := reads_bind.mp h
    obtain ⟨ht', rfl, hc'⟩ := reads_expectOp.mp h₂
    obtain ⟨b, d₃, c₃, h₃, h⟩ := reads_bind.mp h
    obtain ⟨rfl, rfl, rfl⟩ := reads_extend.mp h₃
    obtain ⟨rfl, rfl⟩ := reads_update.mp h
    exact ⟨s, name, c₁, ht, hs, hc, ht', hc', rfl⟩
  · rintro ⟨s, name, c₁, ht, hs, hc, ht', hc', rfl⟩
    exact ⟨_, _, _, reads_label.mpr ⟨s, ht, hs, rfl, hc⟩, reads_bind.mpr
      ⟨_, _, _, reads_expectOp.mpr ⟨ht', rfl, hc'⟩, reads_bind.mpr
        ⟨_, _, _, reads_extend.mpr ⟨rfl, rfl, rfl⟩, reads_update.mpr ⟨rfl, rfl⟩⟩⟩⟩

/-- The token spells the value of the operand. -/
def Spells : Token → Operand → Prop
  | .ident s, .reference _ name => labelName? s = some name
  | .int bits, .constant k => Constant.ofBits? k.ty bits = some k
  | .str s, .constant k => k = .str s
  | _, _ => False

theorem ty_of_ofBits? {t : Ty} {bits : UInt64} {k : Constant}
    (h : Constant.ofBits? t bits = some k) :
    k.ty = t := by
  cases t <;> cases h <;> rfl

theorem reads_value {i : InstrId} {slot : Slot} {t : Ty} : Reads (value i slot t) d c () d' c' ↔
    ∃ o : Operand, o.ty = t ∧ Spells c.current.token o ∧ c.next? = some c' ∧
      d.addOperand i slot o = d' := by
  unfold value
  rw [reads_bind]
  constructor
  · rintro ⟨n, d₁, c₁, h₁, h⟩
    obtain ⟨-, rfl, rfl⟩ := reads_line.mp h₁
    obtain ⟨tok, d₂, c₂, h₂, h⟩ := reads_bind.mp h
    obtain ⟨ht, rfl, hc⟩ := reads_advance.mp h₂
    rw [ht]
    split at h
    · split at h
      · next s name hs =>
        obtain ⟨-, rfl, rfl⟩ := (reads_pure (x := ()) (y := ())
          (d := { d with references := ⟨i, slot, t, name⟩ :: d.references })).mp h
        exact ⟨.reference t name, rfl, hs, hc, rfl⟩
      · exact absurd h reads_refuse
    · split at h
      · next bits k hk =>
        obtain ⟨v, d₃, c₃, h₃, h⟩ := reads_bind.mp h
        obtain ⟨rfl, rfl, rfl⟩ := reads_extend.mp h₃
        obtain ⟨rfl, rfl⟩ := reads_update.mp h
        have hty := ty_of_ofBits? hk
        exact ⟨.constant k, hty, by rw [Spells, hty]; exact hk, hc, rfl⟩
      · exact absurd h reads_refuse
    · split at h
      · next s hs =>
        obtain ⟨v, d₃, c₃, h₃, h⟩ := reads_bind.mp h
        obtain ⟨rfl, rfl, rfl⟩ := reads_extend.mp h₃
        obtain ⟨rfl, rfl⟩ := reads_update.mp h
        exact ⟨.constant (.str s), (beq_iff_eq.mp hs).symm, rfl, hc, rfl⟩
      · exact absurd h reads_refuse
    · exact absurd h reads_refuse
  · rintro ⟨o, rfl, hs, hc, rfl⟩
    refine ⟨_, _, _, reads_line.mpr ⟨rfl, rfl, rfl⟩, reads_bind.mpr
      ⟨_, _, _, reads_advance.mpr ⟨rfl, rfl, hc⟩, ?_⟩⟩
    cases ht : c.current.token with
    | ident s =>
      cases o with
      | constant k =>
        rw [ht] at hs
        cases hs
      | reference t name =>
        rw [ht, Spells] at hs
        dsimp only
        rw [hs]
        exact (reads_pure (x := ()) (y := ())
          (d := { d with references := ⟨i, slot, t, name⟩ :: d.references })).mpr ⟨rfl, rfl, rfl⟩
    | int bits =>
      cases o with
      | reference t name =>
        rw [ht] at hs
        cases hs
      | constant k =>
        rw [ht, Spells] at hs
        dsimp only [Operand.ty]
        rw [hs]
        exact reads_bind.mpr
          ⟨_, _, _, reads_extend.mpr ⟨rfl, rfl, rfl⟩, reads_update.mpr ⟨rfl, rfl⟩⟩
    | str s =>
      cases o with
      | reference t name =>
        rw [ht] at hs
        cases hs
      | constant k =>
        rw [ht, Spells] at hs
        subst hs
        exact reads_bind.mpr
          ⟨_, _, _, reads_extend.mpr ⟨rfl, rfl, rfl⟩, reads_update.mpr ⟨rfl, rfl⟩⟩
    | _ =>
      rw [ht] at hs
      cases o <;> cases hs

/-! ### Lines -/

/-- The line or the text ends here. -/
def Cursor.AtEnd (c : Cursor) : Prop := c.current.token = .eol ∨ c.current.token = .eof

/-- The tokens up to the end of the line spell operands, separated by commas. -/
inductive TakesArgs : List Slot → Cursor → List Operand → Cursor → Prop
  | nil {slots : List Slot} {c : Cursor} (atEnd : c.AtEnd) : TakesArgs slots c [] c
  | cons {slot : Slot} {slots : List Slot} {o : Operand} {os : List Operand} {s : String}
      {c c₁ c₂ c₃ c' : Cursor} (more : ¬ c.AtEnd)
      (comma : if slot = 0 then c₁ = c else c.current.token = .op ',' ∧ c.next? = some c₁)
      (word : c₁.current.token = .ident s) (ty : Ty.ofName? s = some o.ty)
      (next₁ : c₁.next? = some c₂) (spells : Spells c₂.current.token o)
      (next₂ : c₂.next? = some c₃) (tail : TakesArgs slots c₃ os c') :
      TakesArgs (slot :: slots) c (o :: os) c'

theorem reads_arguments {start : Nat} {i : InstrId} {slots : List Slot} {tys : List Ty} :
    Reads (arguments start i slots) d c tys d' c' ↔ ∃ os, TakesArgs slots c os c' ∧
      os.map (·.ty) = tys ∧ d.addOperands i (slots.zip os) = d' := by
  have hnil : ∀ {d : Draft} {c : Cursor} {slots : List Slot}, c.AtEnd → ∀ {tys d' c'},
      (Reads (pure []) d c tys d' c' ↔ ∃ os, TakesArgs slots c os c' ∧
        os.map (·.ty) = tys ∧ d.addOperands i (slots.zip os) = d') := by
    intro d c slots hc tys d' c'
    rw [reads_pure]
    constructor
    · rintro ⟨rfl, rfl, rfl⟩
      exact ⟨[], .nil hc, rfl, by rw [List.zip_nil_right]; rfl⟩
    · rintro ⟨os, hos, rfl, rfl⟩
      cases hos with
      | nil => exact ⟨rfl, by rw [List.zip_nil_right]; rfl, rfl⟩
      | cons more => exact absurd hc more
  induction slots generalizing d c tys with
  | nil =>
    unfold arguments
    rw [reads_peek_bind]
    split
    · next ht => exact hnil (.inl ht)
    · next ht => exact hnil (.inr ht)
    · next hne hne' =>
      refine iff_of_false reads_refuse ?_
      rintro ⟨os, hos, -⟩
      cases hos with
      | nil atEnd => exact atEnd.elim hne hne'
  | cons slot slots ih =>
    unfold arguments
    rw [reads_peek_bind]
    split
    · next ht => exact hnil (.inl ht)
    · next ht => exact hnil (.inr ht)
    · next hne hne' =>
      have hmore : ¬ c.AtEnd := fun h => h.elim hne hne'
      constructor
      · intro h
        obtain ⟨c₁, hcomma, h⟩ : ∃ c₁, (if slot = 0 then c₁ = c else
            c.current.token = .op ',' ∧ c.next? = some c₁) ∧ Reads (do
              let t ← ty
              value i slot t
              return t :: (← arguments start i slots)) d c₁ tys d' c' := by
          by_cases hslot : slot = 0
          · rw [if_neg (not_not.mpr hslot)] at h
            exact ⟨c, by rw [if_pos hslot], h⟩
          · rw [if_pos hslot] at h
            obtain ⟨_, d₁, c₁, h₁, h⟩ := reads_bind.mp h
            obtain ⟨ht, rfl, hc⟩ := reads_expectOp.mp h₁
            exact ⟨c₁, by rw [if_neg hslot]; exact ⟨ht, hc⟩, h⟩
        obtain ⟨t, d₂, c₂, h₂, h⟩ := reads_bind.mp h
        obtain ⟨s, hword, hty, rfl, hnext₁⟩ := reads_ty.mp h₂
        obtain ⟨_, d₃, c₃, h₃, h⟩ := reads_bind.mp h
        obtain ⟨o, rfl, hspells, hnext₂, rfl⟩ := reads_value.mp h₃
        obtain ⟨ts, d₄, c₄, h₄, h⟩ := reads_bind.mp h
        obtain ⟨rfl, rfl, rfl⟩ := reads_pure.mp h
        obtain ⟨os, hos, rfl, rfl⟩ := ih.mp h₄
        exact ⟨o :: os, .cons hmore hcomma hword hty hnext₁ hspells hnext₂ hos, rfl, rfl⟩
      · rintro ⟨os, hos, rfl, rfl⟩
        cases hos with
        | nil atEnd => exact absurd atEnd hmore
        | @cons _ _ o os s _ c₁ c₂ c₃ _ _ comma word hty next₁ spells next₂ tail =>
          have h : Reads (do
              let t ← ty
              value i slot t
              return t :: (← arguments start i slots)) d c₁ ((o :: os).map (·.ty))
              (d.addOperands i ((slot :: slots).zip (o :: os))) c' :=
            reads_bind.mpr ⟨_, _, _, reads_ty.mpr ⟨s, word, hty, rfl, next₁⟩, reads_bind.mpr
              ⟨_, _, _, reads_value.mpr ⟨o, rfl, spells, next₂, rfl⟩, reads_bind.mpr
                ⟨_, _, _, ih.mpr ⟨os, tail, rfl, rfl⟩, reads_pure.mpr ⟨rfl, rfl, rfl⟩⟩⟩⟩
          by_cases hslot : slot = 0
          · rw [if_pos hslot] at comma
            rw [if_neg (not_not.mpr hslot), ← comma]
            exact h
          · rw [if_neg hslot] at comma
            rw [if_pos hslot]
            exact reads_bind.mpr ⟨_, _, _, reads_expectOp.mpr ⟨comma.1, rfl, comma.2⟩, h⟩

/-- The tokens spell the result and the operation of a line. -/
def TakesHead (c : Cursor) (op : Opcode) (c' : Cursor) : Option (Ty × String) → Prop
  | none => ∃ s, c.current.token = .ident s ∧ Ty.ofName? s = none ∧ Opcode.ofName? s = some op ∧
      c.next? = some c'
  | some (t, name) => ∃ s s' s'' c₁ c₂ c₃, c.current.token = .ident s ∧ Ty.ofName? s = some t ∧
      c.next? = some c₁ ∧ c₁.current.token = .ident s' ∧ labelName? s' = some name ∧
      c₁.next? = some c₂ ∧ c₂.current.token = .op '=' ∧ c₂.next? = some c₃ ∧
      c₃.current.token = .ident s'' ∧ Opcode.ofName? s'' = some op ∧ c₃.next? = some c'

theorem check_eq_ok {start : Nat} {op : Opcode} {result : Option Ty} {args : List Ty} :
    Signature.check start op result args = .ok () ↔ Signature.check 0 op result args = .ok () := by
  unfold Signature.check
  split
  · exact iff_of_false (by simp) (by simp)
  · split
    · exact iff_of_false (by simp) (by simp)
    · split
      · exact iff_of_false (by simp) (by simp)
      · split
        · exact iff_of_false (by simp) (by simp)
        · exact Iff.rfl

/-- What the reader does once an instruction has been started. -/
theorem reads_body {start : Nat} {i : InstrId} {op : Opcode} {result : Option Ty} :
    Reads (do
      let args ← arguments start i (List.finRange 3)
      match Signature.check start op result args with
      | .error e => refuse e
      | .ok () => attempt (reserveLocal i op result args)) d c () d' c' ↔
    ∃ os f, TakesArgs (List.finRange 3) c os c' ∧
      Signature.check 0 op result (os.map (·.ty)) = .ok () ∧
      reserveLocal i op result (os.map (·.ty))
        (d.addOperands i ((List.finRange 3).zip os)).fragment = .ok f ∧
      { d.addOperands i ((List.finRange 3).zip os) with fragment := f } = d' := by
  rw [reads_bind]
  constructor
  · rintro ⟨tys, d₁, c₁, h₁, h⟩
    obtain ⟨os, hos, rfl, rfl⟩ := reads_arguments.mp h₁
    split at h
    · exact absurd h reads_refuse
    · next hcheck =>
      obtain ⟨f, hf, rfl, rfl⟩ := reads_attempt.mp h
      exact ⟨os, f, hos, check_eq_ok.mp hcheck, hf, rfl⟩
  · rintro ⟨os, f, hos, hcheck, hf, rfl⟩
    refine ⟨_, _, _, reads_arguments.mpr ⟨os, hos, rfl, rfl⟩, ?_⟩
    rw [check_eq_ok.mpr hcheck]
    exact reads_attempt.mpr ⟨f, hf, rfl, rfl⟩

theorem reads_instr : Reads instr d c () d' c' ↔ ∃ (l : Line) (c₁ : Cursor),
    TakesHead c l.op c₁ l.result ∧ TakesArgs (List.finRange 3) c₁ l.args c' ∧ l.Typed ∧
      (∃ f, d.slotted l = .ok f) ∧ d.addLine l = d' := by
  have hadd : ∀ (l : Line) {f : Fragment}, d.slotted l = .ok f →
      { d.addCode l with fragment := f } = d.addLine l := by
    intro l f hf
    rw [Draft.addLine, hf]
  unfold instr
  rw [reads_bind]
  constructor
  · rintro ⟨start, d₁, c₁, h₁, h⟩
    obtain ⟨-, rfl, rfl⟩ := reads_line.mp h₁
    obtain ⟨first, d₂, c₂, h₂, h⟩ := reads_bind.mp h
    obtain ⟨ht, rfl, hc⟩ := reads_ident.mp h₂
    dsimp only at h
    split at h
    · next t hty =>
      obtain ⟨name, d₃, c₃, h₃, h⟩ := reads_bind.mp h
      obtain ⟨s', ht', hs', rfl, hc'⟩ := reads_label.mp h₃
      obtain ⟨_, d₄, c₄, h₄, h⟩ := reads_bind.mp h
      obtain ⟨ht'', rfl, hc''⟩ := reads_expectOp.mp h₄
      obtain ⟨word, d₅, c₅, h₅, h⟩ := reads_bind.mp h
      obtain ⟨ht₃, rfl, hc₃⟩ := reads_ident.mp h₅
      obtain ⟨_, d₆, c₆, h₆, h⟩ := reads_bind.mp h
      obtain ⟨rfl, rfl, rfl⟩ := reads_pure.mp h₆
      dsimp only at h
      split at h
      · exact absurd h reads_refuse
      · next op hop =>
        obtain ⟨i, d₇, c₇, h₇, h⟩ := reads_bind.mp h
        obtain ⟨rfl, rfl, rfl⟩ := reads_extend.mp h₇
        obtain ⟨_, d₈, c₈, h₈, h⟩ := reads_bind.mp h
        obtain ⟨rfl, rfl⟩ := reads_update.mp h₈
        obtain ⟨os, f, hos, hcheck, hf, rfl⟩ := reads_body.mp h
        exact ⟨⟨some (t, name), op, os⟩, c₅,
          ⟨first, s', word, c₂, c₃, c₄, ht, hty, hc, ht', hs', hc',
          ht'', hc'', ht₃, hop, hc₃⟩, hos, hcheck, ⟨f, hf⟩, (hadd ⟨some (t, name), op, os⟩ hf).symm⟩
    · next hty =>
      obtain ⟨_, d₆, c₆, h₆, h⟩ := reads_bind.mp h
      obtain ⟨rfl, rfl, rfl⟩ := reads_pure.mp h₆
      dsimp only at h
      split at h
      · exact absurd h reads_refuse
      · next op hop =>
        obtain ⟨i, d₇, c₇, h₇, h⟩ := reads_bind.mp h
        obtain ⟨rfl, rfl, rfl⟩ := reads_extend.mp h₇
        obtain ⟨os, f, hos, hcheck, hf, rfl⟩ := reads_body.mp h
        exact ⟨⟨none, op, os⟩, c₂, ⟨first, ht, hty, hop, hc⟩, hos, hcheck, ⟨f, hf⟩,
          (hadd ⟨none, op, os⟩ hf).symm⟩
  · rintro ⟨⟨result, op, os⟩, c₁, hhead, hos, hcheck, ⟨f, hf⟩, rfl⟩
    refine ⟨_, _, _, reads_line.mpr ⟨rfl, rfl, rfl⟩, ?_⟩
    cases result with
    | none =>
      obtain ⟨s, ht, hty, hop, hc⟩ := hhead
      refine reads_bind.mpr ⟨_, _, _, reads_ident.mpr ⟨ht, rfl, hc⟩, ?_⟩
      dsimp only
      rw [hty]
      refine reads_bind.mpr ⟨_, _, _, reads_pure.mpr ⟨rfl, rfl, rfl⟩, ?_⟩
      dsimp only
      rw [hop]
      exact reads_bind.mpr ⟨_, _, _, reads_extend.mpr ⟨rfl, rfl, rfl⟩,
        reads_body.mpr ⟨os, f, hos, hcheck, hf, hadd _ hf⟩⟩
    | some r =>
      obtain ⟨s, s', s'', c₂, c₃, c₄, ht, hty, hc, ht', hs', hc', ht'', hc'', ht₃, hop, hc₃⟩ :=
        hhead
      refine reads_bind.mpr ⟨_, _, _, reads_ident.mpr ⟨ht, rfl, hc⟩, ?_⟩
      dsimp only
      rw [hty]
      refine reads_bind.mpr ⟨_, _, _, reads_label.mpr ⟨s', ht', hs', rfl, hc'⟩, reads_bind.mpr
        ⟨_, _, _, reads_expectOp.mpr ⟨ht'', rfl, hc''⟩, reads_bind.mpr
          ⟨_, _, _, reads_ident.mpr ⟨ht₃, rfl, hc₃⟩, reads_bind.mpr
            ⟨_, _, _, reads_pure.mpr ⟨rfl, rfl, rfl⟩, ?_⟩⟩⟩⟩
      dsimp only
      rw [hop]
      exact reads_bind.mpr ⟨_, _, _, reads_extend.mpr ⟨rfl, rfl, rfl⟩, reads_bind.mpr
        ⟨_, _, _, reads_update.mpr ⟨rfl, rfl⟩, reads_body.mpr ⟨os, f, hos, hcheck, hf, hadd _ hf⟩⟩⟩

/-! ### References -/

/-- Fill the position of a reference, if its label names something of its type. -/
def Reference.fill (blocks : Std.HashMap String BlockId) (results : Std.HashMap String ValueId)
    (f : Fragment) (r : Reference) : Option Fragment :=
  if r.ty = .blk then
    match blocks[r.name]? with
    | none => none
    | some b =>
      let f := if (f.instr r.instr).op.isBranch then f.addEdge (f.instr r.instr).block b else f
      some ((f.addConstant (.blk b)).1.setArg r.instr r.slot (f.addConstant (.blk b)).2)
  else
    match results[r.name]? with
    | none => none
    | some v => if f.ty v = r.ty then some (f.setArg r.instr r.slot v) else none

/-- Resolve the references of a draft, oldest first. -/
def Draft.resolve (d : Draft) : Option Fragment :=
  d.references.reverse.foldlM
    (Reference.fill (blockNames d.fragment) (resultNames d.fragment)) d.fragment

/-- Add an item. -/
def Draft.add (d : Draft) : Item → Draft
  | .block name => d.addBlock name
  | .instr l => d.addLine l

/-- There can be a slot for what an item accesses. -/
def Draft.Fits (d : Draft) : Item → Prop
  | .block _ => True
  | .instr l => ∃ f, d.slotted l = .ok f

/-- Every item fits where the ones before it have been added. -/
def Draft.FitsAll : Draft → List Item → Prop
  | _, [] => True
  | d, it :: its => d.Fits it ∧ (d.add it).FitsAll its

/-- The fragment that items describe. -/
def assemble (its : List Item) : Option Fragment := (its.foldl Draft.add {}).resolve

theorem reads_resolve {blocks : Std.HashMap String BlockId} {results : Std.HashMap String ValueId}
    {r : Reference} : Reads (resolve blocks results r) d c () d' c' ↔
    ∃ f, r.fill blocks results d.fragment = some f ∧ { d with fragment := f } = d' ∧ c = c' := by
  unfold resolve Reference.fill
  by_cases hty : r.ty = .blk
  · rw [if_pos (beq_iff_eq.mpr hty), if_pos hty]
    cases hb : blocks[r.name]? with
    | none =>
      refine iff_of_false reads_refuse ?_
      rintro ⟨f, hf, -⟩
      cases hf
    | some b =>
      constructor
      · intro h
        obtain ⟨_, d₁, c₁, h₁, h⟩ := reads_bind.mp h
        obtain ⟨rfl, rfl⟩ := reads_update.mp h₁
        obtain ⟨v, d₂, c₂, h₂, h⟩ := reads_bind.mp h
        obtain ⟨rfl, rfl, rfl⟩ := reads_extend.mp h₂
        obtain ⟨rfl, rfl⟩ := reads_update.mp h
        exact ⟨_, rfl, rfl, rfl⟩
      · rintro ⟨f, hf, rfl, rfl⟩
        cases hf
        exact reads_bind.mpr ⟨_, _, _, reads_update.mpr ⟨rfl, rfl⟩, reads_bind.mpr
          ⟨_, _, _, reads_extend.mpr ⟨rfl, rfl, rfl⟩, reads_update.mpr ⟨rfl, rfl⟩⟩⟩
  · rw [if_neg (by simpa using hty), if_neg hty]
    cases hv : results[r.name]? with
    | none =>
      refine iff_of_false reads_refuse ?_
      rintro ⟨f, hf, -⟩
      cases hf
    | some v =>
      dsimp only
      by_cases hfound : d.fragment.ty v = r.ty
      · have hstate : (State.of d c).fragment.ty v = r.ty := hfound
        rw [if_pos hfound]
        constructor
        · intro h
          obtain ⟨s, d₁, c₁, h₁, h⟩ := reads_bind.mp h
          obtain ⟨rfl, rfl, rfl⟩ := reads_get.mp h₁
          rw [if_neg (not_not.mpr hstate)] at h
          obtain ⟨rfl, rfl⟩ := reads_update.mp h
          exact ⟨_, rfl, rfl, rfl⟩
        · rintro ⟨f, hf, rfl, rfl⟩
          cases hf
          refine reads_bind.mpr ⟨_, _, _, reads_get.mpr ⟨rfl, rfl, rfl⟩, ?_⟩
          rw [if_neg (not_not.mpr hstate)]
          exact reads_update.mpr ⟨rfl, rfl⟩
      · have hstate : (State.of d c).fragment.ty v ≠ r.ty := hfound
        rw [if_neg hfound]
        refine iff_of_false (fun h => ?_) ?_
        · obtain ⟨s, d₁, c₁, h₁, h⟩ := reads_bind.mp h
          obtain ⟨rfl, rfl, rfl⟩ := reads_get.mp h₁
          rw [if_pos hstate] at h
          obtain ⟨_, d₂, c₂, h₂, h⟩ := reads_bind.mp h
          exact absurd h₂ reads_refuse
        · rintro ⟨f, hf, -⟩
          cases hf

theorem reads_resolveAll {blocks : Std.HashMap String BlockId}
    {results : Std.HashMap String ValueId} {rs : List Reference} :
    Reads (rs.forM (resolve blocks results)) d c () d' c' ↔
    ∃ f, rs.foldlM (Reference.fill blocks results) d.fragment = some f ∧
      { d with fragment := f } = d' ∧ c = c' := by
  induction rs generalizing d with
  | nil =>
    refine (reads_pure (x := ()) (y := ())).trans ?_
    constructor
    · rintro ⟨-, rfl, rfl⟩
      exact ⟨_, rfl, rfl, rfl⟩
    · rintro ⟨f, hf, rfl, rfl⟩
      cases hf
      exact ⟨rfl, rfl, rfl⟩
  | cons r rs ih =>
    rw [List.foldlM_cons]
    refine reads_bind.trans ?_
    constructor
    · rintro ⟨_, d₁, c₁, h₁, h⟩
      obtain ⟨f, hf, rfl, rfl⟩ := reads_resolve.mp h₁
      obtain ⟨g, hg, rfl, rfl⟩ := ih.mp h
      exact ⟨g, by rw [hf]; exact hg, rfl, rfl⟩
    · rintro ⟨g, hg, rfl, rfl⟩
      obtain ⟨f, hf, hg⟩ := Option.bind_eq_some_iff.mp hg
      exact ⟨_, _, _, reads_resolve.mpr ⟨f, hf, rfl, rfl⟩, ih.mpr ⟨g, hg, rfl, rfl⟩⟩

theorem reads_program {fuel : Nat} : Reads (program fuel) d c () d' c' ↔
    ∃ d₁ f, Reads (items fuel) d c () d₁ c' ∧ d₁.resolve = some f ∧
      { d₁ with fragment := f } = d' := by
  unfold program
  rw [reads_bind]
  constructor
  · rintro ⟨_, d₁, c₁, h₁, h⟩
    obtain ⟨s, d₂, c₂, h₂, h⟩ := reads_bind.mp h
    obtain ⟨rfl, rfl, rfl⟩ := reads_get.mp h₂
    obtain ⟨f, hf, rfl, rfl⟩ := reads_resolveAll.mp h
    exact ⟨d₁, f, h₁, hf, rfl⟩
  · rintro ⟨d₁, f, h₁, hf, rfl⟩
    exact ⟨_, _, _, h₁, reads_bind.mpr ⟨_, _, _, reads_get.mpr ⟨rfl, rfl, rfl⟩,
      reads_resolveAll.mpr ⟨f, hf, rfl, rfl⟩⟩⟩

end Parser
end Recompiler.IR
