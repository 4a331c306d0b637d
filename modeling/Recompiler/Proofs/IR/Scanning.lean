import Recompiler.Proofs.IR.Listing
import Recompiler.IR.Token

/-!
The tokens of a listing that is written out are the tokens of its paragraphs, and every name that
is read from a text is made of word characters.
-/
namespace Recompiler.IR

namespace Token

variable {c : Char} {cs rest w : List Char} {t : Token} {ts : List Token}

/-! ### What the scanner leaves -/

theorem length_stringBody_le {line : Nat} {body : List Char}
    (h : stringBody line cs = .ok (body, rest)) : rest.length ≤ cs.length := by
  have hmap : ∀ {x : Except ParseError (List Char × List Char)} {c : Char} {body rest : List Char},
      x.map (fun p => (c :: p.1, p.2)) = .ok (body, rest) → ∃ body', x = .ok (body', rest) := by
    intro x c body rest hx
    cases x with
    | error e => cases hx
    | ok p =>
      cases hx
      exact ⟨p.1, rfl⟩
  fun_induction stringBody line cs generalizing body with
  | case1 => cases h
  | case2 => cases h; simp
  | case3 => cases h
  | case4 c d cs hc => cases h; simp
  | case5 => cases h
  | case6 c d cs hc hn hb hd ih =>
    obtain ⟨body', hx⟩ := hmap h
    have := ih hx
    simp only [List.length_cons]
    omega
  | case7 c d cs hc hn hb hd hq ih =>
    obtain ⟨body', hx⟩ := hmap h
    have := ih hx
    simp only [List.length_cons]
    omega
  | case8 => cases h
  | case9 => cases h
  | case10 c d cs hc hn hb ih =>
    obtain ⟨body', hx⟩ := hmap h
    have := ih hx
    simp only [List.length_cons] at this ⊢
    omega

theorem length_start_le {line line' : Nat} (h : start c cs line = .ok (t, rest, line')) :
    rest.length ≤ cs.length := by
  unfold start word at h
  split at h
  · cases h
    exact length_skipLines_le cs (line + 1)
  · split at h
    · cases h
      exact Nat.le_refl _
    · split at h
      · cases hb : stringBody line cs with
        | error e =>
          rw [hb] at h
          cases h
        | ok p =>
          rw [hb] at h
          cases h
          exact length_stringBody_le hb
      · split at h
        · dsimp only at h
          have hdrop := length_dropWhile_le isWord cs
          split at h
          · split at h <;> cases h
            exact hdrop
          · cases h
            exact hdrop
        · cases h

/-- Every token but the end takes a character. -/
theorem length_next_lt {line line' : Nat} (h : next cs line = .ok (t, rest, line'))
    (ht : t ≠ .eof) :
    rest.length < cs.length := by
  have hskip := length_skipBlank_le cs
  unfold next at h
  split at h
  · cases h
    exact absurd rfl ht
  · next c tail hc =>
    rw [hc, List.length_cons] at hskip
    have := length_start_le h
    omega

/-! ### Texts and their tokens -/

/-- The text starts with `t`, and `rest` follows. -/
def Starts (cs : List Char) (t : Token) (rest : List Char) : Prop :=
  ∀ line, ∃ line', next cs line = .ok (t, rest, line')

/-- The text has these tokens. -/
inductive Lexes : List Char → List Token → Prop
  | done {cs : List Char} (blank : skipBlank cs = []) : Lexes cs [eof]
  | cons {cs rest : List Char} {t : Token} {ts : List Token} (starts : Starts cs t rest)
      (more : t ≠ .eof) (tail : Lexes rest ts) : Lexes cs (t :: ts)

theorem Lexes.stream (h : Lexes cs ts) {fuel : Nat} (hfuel : cs.length < fuel) (line : Nat) :
    ∃ ps : List Placed, stream fuel cs line = ps.map .ok ∧ ps.map (·.token) = ts := by
  induction h generalizing fuel line with
  | @done cs blank =>
    obtain ⟨fuel, rfl⟩ : ∃ k, fuel = k + 1 := ⟨fuel - 1, by omega⟩
    refine ⟨[⟨.eof, line⟩], ?_, rfl⟩
    rw [Token.stream, next, blank]
    rfl
  | @cons cs rest t ts starts more _ ih =>
    obtain ⟨fuel, rfl⟩ : ∃ k, fuel = k + 1 := ⟨fuel - 1, by omega⟩
    obtain ⟨line', hnext⟩ := starts line
    have hlt := length_next_lt hnext more
    obtain ⟨ps, hps, rfl⟩ := ih (Nat.lt_of_lt_of_le hlt (Nat.le_of_lt_succ hfuel)) line'
    refine ⟨⟨t, line'⟩ :: ps, ?_, rfl⟩
    rw [Token.stream, hnext]
    cases t with
    | eof => exact absurd rfl more
    | _ => exact congrArg (_ :: ·) hps

/-! ### Names that are read -/

/-- A name is made of word characters. -/
def Lexical : Token → Prop
  | .ident s => ∀ c ∈ s.toList, isWord c = true
  | _ => True

theorem start_lexical {line line' : Nat} (h : start c cs line = .ok (t, rest, line')) :
    t.Lexical := by
  unfold start word at h
  split at h
  · cases h
    trivial
  · split at h
    · cases h
      trivial
    · split at h
      · cases hb : stringBody line cs with
        | error e =>
          rw [hb] at h
          cases h
        | ok p =>
          rw [hb] at h
          cases h
          trivial
      · split at h
        · next hc =>
          dsimp only at h
          split at h
          · split at h <;> cases h
            trivial
          · cases h
            intro d hd
            rw [String.toList_ofList] at hd
            rcases List.mem_cons.mp hd with rfl | hd
            · exact hc
            · exact List.mem_takeWhile_imp hd
        · cases h

theorem next_lexical {line line' : Nat} (h : next cs line = .ok (t, rest, line')) : t.Lexical := by
  unfold next at h
  split at h
  · cases h
    trivial
  · exact start_lexical h

theorem stream_lexical {fuel line : Nat} {p : Placed} (h : .ok p ∈ stream fuel cs line) :
    p.token.Lexical := by
  fun_induction stream fuel cs line with
  | case1 => cases h
  | case2 => simp at h
  | case3 =>
    rw [List.mem_singleton] at h
    cases h
    trivial
  | case4 line fuel cs t rest line' _ hnext ih =>
    rcases List.mem_cons.mp h with h | h
    · cases h
      exact next_lexical hnext
    · exact ih h

/-! ### Single tokens -/

/-- The text does not go on with a word. -/
def Stops (cs : List Char) : Prop := ∀ c ∈ cs.head?, isWord c = false

theorem Lexes.blank (h : Lexes cs ts) : Lexes (' ' :: cs) ts := by
  cases h with
  | done blank => exact .done blank
  | cons starts more tail => exact .cons starts more tail

theorem Lexes.op (hc : c = ':' ∨ c = ',' ∨ c = '=') (h : Lexes cs ts) :
    Lexes (c :: cs) (.op c :: ts) := by
  refine .cons (fun line => ⟨line, ?_⟩) (by simp) h
  rcases hc with rfl | rfl | rfl <;> rfl

/-- A word character is no blank, sign or quote. -/
theorem start_of_isWord (hc : isWord c = true) (line : Nat) :
    next (c :: cs) line = word c cs line := by
  have hne : ∀ d, isWord d = false → (c == d) = false := by
    intro d hd
    rw [beq_eq_false_iff_ne]
    rintro rfl
    rw [hc] at hd
    cases hd
  have hblank : isBlank c = false := by
    unfold isBlank
    rw [hne ' ' (by decide), hne '\t' (by decide), hne '\r' (by decide), hne '\x0c' (by decide)]
    rfl
  have hskip : skipBlank (c :: cs) = c :: cs := by
    rw [skipBlank, hne '#' (by decide), hblank]
    rfl
  rw [next, hskip]
  unfold start
  simp only [hne '\n' (by decide), hne ':' (by decide), hne ',' (by decide), hne '=' (by decide),
    hne quote (by decide), hc, Bool.or_self, Bool.false_eq_true, if_false, if_true]

theorem takeWhile_word (hw : ∀ c ∈ w, isWord c = true) (hrest : Stops rest) :
    (w ++ rest).takeWhile isWord = w ∧ (w ++ rest).dropWhile isWord = rest := by
  have hstop : rest.takeWhile isWord = [] ∧ rest.dropWhile isWord = rest := by
    cases rest with
    | nil => exact ⟨rfl, rfl⟩
    | cons c rest =>
      have hc : isWord c = false := hrest c rfl
      simp [hc]
  rw [List.takeWhile_append_of_pos hw, List.dropWhile_append_of_pos hw, hstop.1, hstop.2]
  simp

/-- A word that does not start with a digit is a name. -/
theorem Lexes.ident (hc : isWord c = true) (hdigit : c.isDigit = false)
    (hw : ∀ d ∈ w, isWord d = true) (hrest : Stops rest) (h : Lexes rest ts) :
    Lexes (c :: w ++ rest) (.ident (String.ofList (c :: w)) :: ts) := by
  refine .cons (fun line => ⟨line, ?_⟩) (by simp) h
  obtain ⟨htake, hdrop⟩ := takeWhile_word hw hrest
  rw [List.cons_append, start_of_isWord hc]
  unfold word
  rw [htake, hdrop, hdigit]
  rfl

/-! ### Numbers -/

theorem isWord_digitChar : ∀ d < 16, isWord (Nat.digitChar d) = true := by decide

theorem digit?_digitChar : ∀ d < 16, digit? (Nat.digitChar d) = some d := by decide

theorem isWord_hexDigits (n : Nat) : ∀ c ∈ Nat.toDigits 16 n, isWord c = true := by
  induction n using Nat.strong_induction_on with
  | _ n ih =>
    intro c hc
    by_cases hn : n < 16
    · rw [Nat.toDigits_of_lt_base hn, List.mem_singleton] at hc
      rw [hc]
      exact isWord_digitChar n hn
    · rw [Nat.toDigits_of_base_le (by omega) (by omega)] at hc
      rcases List.mem_append.mp hc with hc | hc
      · exact ih (n / 16) (by omega) c hc
      · rw [List.mem_singleton.mp hc]
        exact isWord_digitChar _ (Nat.mod_lt _ (by omega))

/-- Hexadecimal digits spell the number that they were written for. -/
theorem digits?_hexDigits (n : Nat) : digits? 16 (Nat.toDigits 16 n) = some n := by
  have hdigit : ∀ d < 16, ∀ m, digits? 16 [Nat.digitChar d] = some d ∧
      (do let e ← digit? (Nat.digitChar d)
          if e < 16 then some (m * 16 + e) else none) = some (m * 16 + d) := by
    intro d hd m
    simp [digits?, digit?_digitChar d hd, hd]
  induction n using Nat.strong_induction_on with
  | _ n ih =>
    by_cases hn : n < 16
    · rw [Nat.toDigits_of_lt_base hn]
      exact (hdigit n hn 0).1
    · have hmod : n % 16 < 16 := Nat.mod_lt _ (by omega)
      have hrest := ih (n / 16) (by omega)
      unfold digits? at hrest ⊢
      rw [Nat.toDigits_of_base_le (by omega) (by omega), List.foldlM_append, hrest]
      have hlast := (hdigit (n % 16) hmod (n / 16)).2
      rw [Nat.div_add_mod'] at hlast
      simpa using hlast

theorem Lexes.number {v : UInt64} (hrest : Stops rest) (h : Lexes rest ts) :
    Lexes ((Text.hex v.toNat).toList ++ rest) (.int v :: ts) := by
  have hchars : (Text.hex v.toNat).toList = '0' :: 'x' :: Nat.toDigits 16 v.toNat := by
    simp [Text.hex, Text.hexDigits]
  have hword : ∀ c ∈ 'x' :: Nat.toDigits 16 v.toNat, isWord c = true := by
    intro c hc
    rcases List.mem_cons.mp hc with rfl | hc
    · decide
    · exact isWord_hexDigits _ c hc
  obtain ⟨htake, hdrop⟩ := takeWhile_word hword hrest
  have hne : (Nat.toDigits 16 v.toNat).isEmpty = false := by
    simp
  have hnumber : number? ('0' :: 'x' :: Nat.toDigits 16 v.toNat) = some v := by
    have hlt : v.toNat < UInt64.size := v.toNat_lt
    simp [number?, hne, digits?_hexDigits, hlt]
  rw [hchars]
  refine .cons (fun line => ⟨line, ?_⟩) (by simp) h
  rw [List.cons_append, start_of_isWord (by decide)]
  unfold word
  dsimp only
  rw [htake, hdrop, hnumber]
  rfl

/-! ### Line ends -/

theorem skipBlank_of_isWord (hc : isWord c = true) : skipBlank (c :: cs) = c :: cs := by
  rw [skipBlank, if_neg, if_neg]
  · unfold isBlank
    simp only [Bool.or_eq_true, beq_iff_eq]
    rintro (((rfl | rfl) | rfl) | rfl) <;> exact absurd hc (by decide)
  · rw [beq_iff_eq]
    rintro rfl
    exact absurd hc (by decide)

theorem skipLines_of_isWord (hc : isWord c = true) (line : Nat) :
    skipLines (c :: cs) line = (c :: cs, line) := by
  unfold skipLines
  split
  · next h => exact absurd ((skipBlank_of_isWord hc).symm.trans h) (by simp)
  · next d rest h =>
    obtain ⟨rfl, rfl⟩ := List.cons.inj ((skipBlank_of_isWord hc).symm.trans h)
    rw [if_neg]
    rw [beq_iff_eq]
    rintro rfl
    exact absurd hc (by decide)

theorem skipLines_eol (cs : List Char) (line : Nat) :
    skipLines ('\n' :: cs) line = skipLines cs (line + 1) := by
  conv_lhs => unfold skipLines
  split
  · next h => exact absurd h (by simp [skipBlank, isBlank])
  · next d rest h =>
    obtain ⟨rfl, rfl⟩ : '\n' = d ∧ cs = rest := by simpa [skipBlank, isBlank] using h
    rfl

theorem Lexes.eol (hc : isWord c = true) (h : Lexes (c :: cs) ts) :
    Lexes ('\n' :: c :: cs) (.eol :: ts) := by
  refine .cons (fun line => ⟨line + 1, ?_⟩) (by simp) h
  change Except.ok (Token.eol, (skipLines (c :: cs) (line + 1)).1, _) = _
  rw [skipLines_of_isWord hc]

theorem lexes_eol : Lexes ['\n'] [.eol, .eof] := by
  refine .cons (show Starts ['\n'] .eol [] from fun line => ⟨line + 1, ?_⟩) (by simp) (.done rfl)
  change Except.ok (Token.eol, (skipLines [] (line + 1)).1, (skipLines [] (line + 1)).2) = _
  unfold skipLines
  rfl

/-- Line ends in a row are one token. -/
theorem Lexes.eol_eol (h : Lexes ('\n' :: cs) ts) : Lexes ('\n' :: '\n' :: cs) ts := by
  have hnext : ∀ line, next ('\n' :: '\n' :: cs) line = next ('\n' :: cs) (line + 1) := by
    intro line
    change Except.ok (Token.eol, (skipLines ('\n' :: cs) (line + 1)).1,
      (skipLines ('\n' :: cs) (line + 1)).2) = _
    rw [skipLines_eol]
    rfl
  cases h with
  | done blank => exact absurd blank (by simp [skipBlank, isBlank])
  | cons starts more tail =>
    refine .cons (fun line => ?_) more tail
    rw [hnext]
    exact starts (line + 1)

end Token

/-! ### Listings -/

open Token

/-- A label that the scanner reads as one name. -/
def IsLabel (name : String) : Prop := name ≠ "" ∧ ∀ c ∈ name.toList, isWord c = true

/-- The name that refers to a label. -/
def labelToken (name : String) : Token := .ident (String.ofList (labelChars name))

namespace Operand

/-- The token behind the type. -/
def token : Operand → Token
  | constant (.str s) => .str s
  | constant c => .int (c.bits?.getD 0)
  | reference _ name => labelToken name

def tokens (o : Operand) : List Token := [.ident o.ty.name, o.token]

def listTokens (os : List Operand) : List Token := [Token.op ','].intercalate (os.map tokens)

/-- A constant is a number, and a label is a name. -/
def Lexical : Operand → Prop
  | constant c => c.bits?.isSome
  | reference _ name => IsLabel name

end Operand

namespace Line

def resultTokens : Option (Ty × String) → List Token
  | some (ty, name) => [.ident ty.name, labelToken name, .op '=']
  | none => []

def tokens (l : Line) : List Token :=
  resultTokens l.result ++ .ident l.op.name :: Operand.listTokens l.args

structure Lexical (l : Line) : Prop where
  result : ∀ r ∈ l.result, IsLabel r.2
  args : ∀ o ∈ l.args, o.Lexical

end Line

namespace Paragraph

def tokens (p : Paragraph) : List Token :=
  labelToken p.name :: .op ':' :: .eol :: p.lines.flatMap (·.tokens ++ [.eol])

structure Lexical (p : Paragraph) : Prop where
  name : IsLabel p.name
  lines : ∀ l ∈ p.lines, l.Lexical

end Paragraph

variable {cs rest : List Char} {ts : List Token}

/-- Words that do not start with a digit. -/
def isName : List Char → Bool
  | [] => false
  | c :: w => isWord c && !c.isDigit && w.all isWord

theorem isName_ty (t : Ty) : isName t.name.toList = true := by
  cases t <;> rfl

theorem isName_op (op : Opcode) : isName op.name.toList = true := by
  cases op <;> rfl

theorem lexes_name {s : String} (hs : isName s.toList = true) (hrest : Stops rest)
    (h : Lexes rest ts) : Lexes (s.toList ++ rest) (.ident s :: ts) := by
  cases he : s.toList with
  | nil =>
    rw [he] at hs
    cases hs
  | cons c w =>
    obtain rfl : s = String.ofList (c :: w) := by rw [← he, String.ofList_toList]
    rw [he] at hs
    simp only [isName, Bool.and_eq_true, Bool.not_eq_true', List.all_eq_true] at hs
    exact .ident hs.1.1 hs.1.2 hs.2 hrest h

theorem lexes_label {name : String} (hname : IsLabel name) (hrest : Stops rest)
    (h : Lexes rest ts) :
    Lexes (labelChars name ++ rest) (labelToken name :: ts) :=
  .ident (by decide) (by decide) hname.2 hrest h

theorem stops_blank (cs : List Char) : Stops (' ' :: cs) := by
  intro c hc
  cases hc
  decide

theorem lexes_operand {o : Operand} (ho : o.Lexical) (hrest : Stops rest) (h : Lexes rest ts) :
    Lexes (o.chars ++ rest) (o.tokens ++ ts) := by
  have hpayload : Lexes (o.payload ++ rest) (o.token :: ts) := by
    cases o with
    | reference ty name => exact lexes_label ho hrest h
    | constant c =>
      cases c with
      | str s => cases ho
      | blk b => cases ho
      | _ => exact .number hrest h
  rw [Operand.chars, List.append_assoc]
  exact lexes_name (isName_ty _) (stops_blank _) hpayload.blank

theorem lexes_operands {os : List Operand} (hos : ∀ o ∈ os, o.Lexical) (hrest : Stops rest)
    (h : Lexes rest ts) : Lexes (Operand.listChars os ++ rest) (Operand.listTokens os ++ ts) := by
  have hcomma : ∀ cs : List Char, Stops (',' :: cs) := by
    intro cs c hc
    cases hc
    decide
  unfold Operand.listChars Operand.listTokens
  induction os with
  | nil => exact h
  | cons o os ih =>
    have ho := hos o (by simp)
    cases os with
    | nil => simpa using lexes_operand ho hrest h
    | cons o' os =>
      have htail := ih fun x hx => hos x (by simp [hx])
      simp only [List.map_cons] at htail ⊢
      rw [List.intercalate_cons_cons, List.intercalate_cons_cons]
      simp only [List.append_assoc]
      exact lexes_operand ho (hcomma _) (.op (by simp) htail.blank)

/-- The end of a line or of the text stops a word. -/
theorem stops_eol (cs : List Char) : Stops ('\n' :: cs) := by
  intro c hc
  cases hc
  decide

theorem lexes_line {l : Line} (hl : l.Lexical) (h : Lexes ('\n' :: cs) ts) :
    Lexes (l.chars ++ '\n' :: cs) (l.tokens ++ ts) := by
  have hargs : Lexes (Line.argChars l.args ++ '\n' :: cs) (Operand.listTokens l.args ++ ts) ∧
      Stops (Line.argChars l.args ++ '\n' :: cs) := by
    have hall := lexes_operands hl.args (stops_eol cs) h
    cases ha : l.args with
    | nil => exact ⟨h, stops_eol cs⟩
    | cons o os =>
      rw [ha] at hall
      exact ⟨hall.blank, stops_blank _⟩
  have hop := lexes_name (isName_op l.op) hargs.2 hargs.1
  rw [Line.chars, Line.tokens, List.append_assoc, List.append_assoc, List.append_assoc]
  cases hr : l.result with
  | none => exact hop
  | some r =>
    have hname := hl.result r (by simp [hr])
    have hassign := lexes_label hname (stops_blank _) (.blank (.op (c := '=') (by simp) hop.blank))
    simpa [Line.resultChars, Line.resultTokens] using
      lexes_name (isName_ty r.1) (stops_blank _) hassign.blank

/-- The first character of a line is that of a type or an operation. -/
theorem head_line (l : Line) (cs : List Char) : ∃ c w, l.chars ++ cs = c :: w ∧
    isWord c = true := by
  have hhead : ∀ s cs : List Char, isName s = true → ∃ c w, s ++ cs = c :: w ∧ isWord c = true := by
    intro s cs hs
    cases s with
    | nil => cases hs
    | cons c w =>
      simp only [isName, Bool.and_eq_true] at hs
      exact ⟨c, w ++ cs, rfl, hs.1.1⟩
  unfold Line.chars
  cases l.result with
  | none =>
    rw [Line.resultChars, List.nil_append, List.append_assoc]
    exact hhead _ _ (isName_op l.op)
  | some r =>
    rw [Line.resultChars, List.append_assoc, List.append_assoc, List.append_assoc,
      List.append_assoc]
    exact hhead _ _ (isName_ty r.1)

/-- A line end, and lines that each have theirs. -/
theorem lexes_lines {ls : List Line} (hls : ∀ l ∈ ls, l.Lexical)
    (h : Lexes ('\n' :: cs) (.eol :: ts)) :
    Lexes ('\n' :: (ls.flatMap (·.chars ++ ['\n']) ++ cs))
      (.eol :: (ls.flatMap (·.tokens ++ [.eol]) ++ ts)) := by
  induction ls with
  | nil => exact h
  | cons l ls ih =>
    have htail := lexes_line (hls l (by simp)) (ih fun x hx => hls x (by simp [hx]))
    obtain ⟨c, w, he, hc⟩ := head_line l ('\n' :: (ls.flatMap (·.chars ++ ['\n']) ++ cs))
    rw [he] at htail
    have hline := Lexes.eol hc htail
    rw [← he] at hline
    simpa using hline

theorem lexes_paragraph {p : Paragraph} (hp : p.Lexical) (h : Lexes ('\n' :: cs) (.eol :: ts)) :
    Lexes (p.chars ++ cs) (p.tokens ++ ts) := by
  have hlines := lexes_lines hp.lines h.eol_eol
  have hcolon : ∀ cs : List Char, Stops (':' :: cs) := by
    intro cs c hc
    cases hc
    decide
  have := lexes_label hp.name (hcolon _) (.op (by simp) hlines)
  simpa [Paragraph.chars, Paragraph.tokens] using this

/-- A listing that is written out has the tokens of its paragraphs. -/
theorem lexes_listing {ps : List Paragraph} (hps : ∀ p ∈ ps, p.Lexical) :
    Lexes (ps.flatMap Paragraph.chars) (ps.flatMap Paragraph.tokens ++ [.eof]) := by
  have hend : ∀ ps : List Paragraph, (∀ p ∈ ps, p.Lexical) →
      Lexes (ps.flatMap Paragraph.chars) (ps.flatMap Paragraph.tokens ++ [.eof]) →
      Lexes ('\n' :: ps.flatMap Paragraph.chars)
        (.eol :: ps.flatMap Paragraph.tokens ++ [.eof]) := by
    intro ps _ h
    cases ps with
    | nil => exact lexes_eol
    | cons p ps => exact .eol (by decide) h
  induction ps with
  | nil => exact .done rfl
  | cons p ps ih =>
    have hrest : ∀ q ∈ ps, q.Lexical := fun q hq => hps q (by simp [hq])
    rw [List.flatMap_cons, List.flatMap_cons, List.append_assoc]
    exact lexes_paragraph (hps p (by simp)) (hend ps hrest (ih hrest))

end Recompiler.IR
