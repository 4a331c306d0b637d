import Recompiler.IR.Token

/-!
String constants between quotes. What the printer escapes is read back as one token, and the
characters that the scanner goes through are those that the bytes of a text stand for.
-/
namespace Recompiler.IR.Token

variable {c : Char} {cs rest : List Char} {line : Nat}

/-! ### The body of a string -/

/-- The outcome of the rest of a body, behind a piece of it. -/
def behind {α : Type} (piece : List α) (r : Except ParseError (List α × List α)) :
    Except ParseError (List α × List α) :=
  r.map fun p => (piece ++ p.1, p.2)

/-- A character that stands for itself between quotes. -/
def IsPlain (c : Char) : Prop := c ≠ quote ∧ c ≠ '\\' ∧ c ≠ '\n'

theorem stringBody_quote : stringBody line (quote :: rest) = .ok ([], rest) := by
  cases rest <;> rfl

theorem stringBody_plain (hc : IsPlain c) :
    stringBody line (c :: cs) = behind [c] (stringBody line cs) := by
  obtain ⟨hquote, hback, heol⟩ := hc
  cases cs with
  | nil => simp [stringBody, hquote, behind, Except.map]
  | cons d cs =>
    rw [stringBody]
    simp [hquote, hback, heol, behind]

theorem stringBody_escapedEol :
    stringBody line ('\\' :: 'n' :: cs) = behind ['\n'] (stringBody line cs) := rfl

theorem stringBody_escaped (hc : c = quote ∨ c = '\\') :
    stringBody line ('\\' :: c :: cs) = behind [c] (stringBody line cs) := by
  rcases hc with rfl | rfl <;> rfl

/-! ### Reading what is escaped -/

theorem escape_plain (hc : IsPlain c) : escape (c :: cs) = c :: escape cs := by
  obtain ⟨hquote, hback, heol⟩ := hc
  simp [escape, hquote, hback, heol]

theorem escape_special (hc : c = quote ∨ c = '\\') : escape (c :: cs) = '\\' :: c :: escape cs := by
  rcases hc with rfl | rfl <;> rfl

theorem escape_eol : escape ('\n' :: cs) = '\\' :: 'n' :: escape cs := rfl

/-- The reader undoes one step of the printer, whatever follows. -/
theorem stringBody_escape_cons : stringBody line (escape (c :: cs) ++ rest) =
    behind [c] (stringBody line (escape cs ++ rest)) := by
  by_cases hspecial : c = quote ∨ c = '\\'
  · rw [escape_special hspecial]
    exact stringBody_escaped hspecial
  · by_cases heol : c = '\n'
    · subst heol
      rw [escape_eol]
      exact stringBody_escapedEol
    · have hplain : IsPlain c := ⟨fun h => hspecial (.inl h), fun h => hspecial (.inr h), heol⟩
      rw [escape_plain hplain]
      exact stringBody_plain hplain

theorem stringBody_escape (cs rest : List Char) (line : Nat) :
    stringBody line (escape cs ++ quote :: rest) = .ok (cs, rest) := by
  induction cs with
  | nil => exact stringBody_quote
  | cons c cs ih =>
    rw [stringBody_escape_cons, ih]
    rfl

/-! ### Bytes of a character -/

/-- A text in UTF-8. -/
def utf8 (cs : List Char) : List UInt8 := cs.flatMap String.utf8EncodeChar

theorem utf8_cons : utf8 (c :: cs) = String.utf8EncodeChar c ++ utf8 cs := List.flatMap_cons

theorem fromUTF8?_utf8 (cs : List Char) :
    String.fromUTF8? (utf8 cs).toByteArray = some (String.ofList cs) :=
  dif_pos ByteArray.isValidUTF8_utf8Encode

theorem utf8EncodeChar_ascii (hc : c.toNat < 0x80) :
    String.utf8EncodeChar c = [UInt8.ofNat c.toNat] :=
  if_pos (Nat.le_of_lt_succ hc)

theorem utf8_ascii (hc : c.toNat < 0x80) : utf8 (c :: cs) = UInt8.ofNat c.toNat :: utf8 cs := by
  rw [utf8_cons, utf8EncodeChar_ascii hc]
  rfl

/-- All bytes of a character outside ASCII are outside ASCII. -/
theorem le_of_mem_utf8EncodeChar (hc : 0x80 ≤ c.toNat) :
    ∀ b ∈ String.utf8EncodeChar c, 0x80 ≤ b.toNat := by
  unfold String.utf8EncodeChar
  rw [Char.toNat_val]
  dsimp only
  split
  · omega
  · split
    · simp
      omega
    · split <;> simp <;> omega

/-- No byte of a character is an ASCII character other than itself. -/
theorem ne_of_mem_utf8EncodeChar {d : Char} (hd : d.toNat < 0x80) (hne : c ≠ d) :
    ∀ b ∈ String.utf8EncodeChar c, b ≠ UInt8.ofNat d.toNat := by
  have htoNat : ∀ n < 0x80, (UInt8.ofNat n).toNat = n := fun n hn =>
    UInt8.toNat_ofNat_of_lt' (Nat.lt_trans hn (by decide))
  intro b hb he
  have hbd : b.toNat = d.toNat := by rw [he, htoNat _ hd]
  by_cases hc : c.toNat < 0x80
  · rw [utf8EncodeChar_ascii hc, List.mem_singleton] at hb
    rw [hb, htoNat _ hc] at hbd
    exact hne (Char.toNat_inj.mp hbd)
  · have := le_of_mem_utf8EncodeChar (by omega) b hb
    omega

theorem ofUInt8_ofNat {m n : Nat} (hn : n < 256) (h : m = n) :
    Char.ofUInt8 (UInt8.ofNat m) = Char.ofNat n := by
  subst h
  have hvalid : m.isValidChar := .inl (by omega)
  rw [Char.ofNat, dif_pos hvalid, ← Char.toNat_inj]
  change (UInt8.ofNat m).toUInt32.toNat = m
  simp
  omega

/-- The byte that errors show is the first one of the character. -/
theorem exists_leadByte (c : Char) :
    ∃ e bs, String.utf8EncodeChar c = e :: bs ∧ Char.ofUInt8 e = leadByte c := by
  have hlt : c.toNat < 0x110000 := by
    rcases c.valid with h | h
    · exact Nat.lt_trans h (by decide)
    · exact h.2
  unfold String.utf8EncodeChar leadByte
  rw [Char.toNat_val]
  dsimp only
  rcases Nat.lt_or_ge c.toNat 0x80 with h₁ | h₁
  · rw [if_pos h₁, if_pos (Nat.le_of_lt_succ h₁)]
    exact ⟨_, _, rfl, (ofUInt8_ofNat (by omega) rfl).trans (Char.ofNat_toNat c)⟩
  rw [if_neg (by omega : ¬c.toNat < 0x80), if_neg (by omega : ¬c.toNat ≤ 127)]
  rcases Nat.lt_or_ge c.toNat 0x800 with h₂ | h₂
  · rw [if_pos h₂, if_pos (Nat.le_of_lt_succ h₂)]
    exact ⟨_, _, rfl, ofUInt8_ofNat (by omega) (by omega)⟩
  rw [if_neg (by omega : ¬c.toNat < 0x800), if_neg (by omega : ¬c.toNat ≤ 2047)]
  rcases Nat.lt_or_ge c.toNat 0x10000 with h₃ | h₃
  · rw [if_pos h₃, if_pos (Nat.le_of_lt_succ h₃)]
    exact ⟨_, _, rfl, ofUInt8_ofNat (by omega) (by omega)⟩
  · rw [if_neg (by omega : ¬c.toNat < 0x10000), if_neg (by omega : ¬c.toNat ≤ 65535)]
    exact ⟨_, _, rfl, ofUInt8_ofNat (by omega) (by omega)⟩

/-! ### The body of a string, byte by byte -/

/-- The bytes of a string after the opening quote, and those behind the closing one. -/
def stringBytes (line : Nat) : List UInt8 → Except ParseError (List UInt8 × List UInt8)
  | [] => .error (.unterminatedString line)
  | b :: bs =>
    if b = 0x27 then .ok ([], bs)
    else if b = 0x0a then .error (.unterminatedString line)
    else if b = 0x5c then
      match bs with
      | [] => .error (.unterminatedString line)
      | e :: bs =>
        if e = 0x6e then behind [0x0a] (stringBytes line bs)
        else if e = 0x27 ∨ e = 0x5c then behind [e] (stringBytes line bs)
        else if e = 0x0a then .error (.unterminatedString line)
        else .error (.badLiteral line (String.ofList ['\\', Char.ofUInt8 e]))
    else behind [b] (stringBytes line bs)

/-- The string that bytes after an opening quote spell, if it is text, and the bytes behind it. -/
def stringText (line : Nat) (bs : List UInt8) : Except ParseError (Option String × List UInt8) :=
  (stringBytes line bs).map fun p => (String.fromUTF8? p.1.toByteArray, p.2)

variable {b e : UInt8} {bs tail : List UInt8}

theorem stringBytes_quote : stringBytes line (0x27 :: bs) = .ok ([], bs) := by
  rw [stringBytes.eq_def]
  rfl

theorem stringBytes_eol : stringBytes line (0x0a :: bs) = .error (.unterminatedString line) := by
  rw [stringBytes.eq_def]
  rfl

theorem stringBytes_plain (hquote : b ≠ 0x27) (heol : b ≠ 0x0a) (hback : b ≠ 0x5c) :
    stringBytes line (b :: bs) = behind [b] (stringBytes line bs) := by
  rw [stringBytes.eq_def line (b :: bs)]
  dsimp only
  rw [if_neg hquote, if_neg heol, if_neg hback]

theorem stringBytes_escapedEol :
    stringBytes line (0x5c :: 0x6e :: bs) = behind [0x0a] (stringBytes line bs) := by
  rw [stringBytes.eq_def]
  rfl

theorem stringBytes_escaped (he : e = 0x27 ∨ e = 0x5c) :
    stringBytes line (0x5c :: e :: bs) = behind [e] (stringBytes line bs) := by
  rw [stringBytes.eq_def]
  rcases he with rfl | rfl <;> rfl

theorem stringBytes_brokenEscape :
    stringBytes line (0x5c :: 0x0a :: bs) = .error (.unterminatedString line) := by
  rw [stringBytes.eq_def]
  rfl

theorem stringBytes_badEscape (hn : e ≠ 0x6e) (hquote : e ≠ 0x27) (hback : e ≠ 0x5c)
    (heol : e ≠ 0x0a) : stringBytes line (0x5c :: e :: bs) =
      .error (.badLiteral line (String.ofList ['\\', Char.ofUInt8 e])) := by
  rw [stringBytes.eq_def]
  simp [hn, hquote, hback, heol]

theorem behind_behind {α : Type} (p q : List α) (r : Except ParseError (List α × List α)) :
    behind p (behind q r) = behind (p ++ q) r := by
  cases r with
  | error e => rfl
  | ok x => simp [behind, Except.map]

/-- The bytes of a plain character stand for themselves. -/
theorem stringBytes_utf8EncodeChar (hc : IsPlain c) :
    stringBytes line (String.utf8EncodeChar c ++ tail) =
      behind (String.utf8EncodeChar c) (stringBytes line tail) := by
  have hquote := ne_of_mem_utf8EncodeChar (d := quote) (by decide) hc.1
  have hback := ne_of_mem_utf8EncodeChar (d := '\\') (by decide) hc.2.1
  have heol := ne_of_mem_utf8EncodeChar (d := '\n') (by decide) hc.2.2
  generalize String.utf8EncodeChar c = bs at hquote hback heol ⊢
  induction bs with
  | nil => cases h : stringBytes line tail <;> simp [behind, Except.map, h]
  | cons b bs ih =>
    rw [List.forall_mem_cons] at hquote hback heol
    rw [List.cons_append, stringBytes_plain hquote.1 heol.1 hback.1, ih hquote.2 hback.2 heol.2,
      behind_behind]
    rfl

theorem behind_utf8 (c : Char) (r : Except ParseError (List Char × List Char)) :
    behind (String.utf8EncodeChar c) (r.map fun p => (utf8 p.1, utf8 p.2)) =
      (behind [c] r).map fun p => (utf8 p.1, utf8 p.2) := by
  cases r with
  | error e => rfl
  | ok p => simp [behind, Except.map, utf8]

/-- Reading the bytes of a text is reading its characters: the same bodies, the same errors. -/
theorem stringBytes_utf8 (line : Nat) (cs : List Char) :
    stringBytes line (utf8 cs) = (stringBody line cs).map fun p => (utf8 p.1, utf8 p.2) := by
  fun_induction stringBody line cs with
  | case1 => rfl
  | case2 c hquote =>
    rw [beq_iff_eq.mp hquote]
    rfl
  | case3 c hquote =>
    by_cases heol : c = '\n'
    · rw [heol]
      rfl
    · by_cases hback : c = '\\'
      · rw [hback]
        rfl
      · rw [utf8_cons, stringBytes_utf8EncodeChar ⟨by simpa using hquote, hback, heol⟩]
        rfl
  | case4 c d cs hquote =>
    rw [beq_iff_eq.mp hquote, utf8_ascii (by decide)]
    exact stringBytes_quote
  | case5 c d cs _ heol =>
    rw [beq_iff_eq.mp heol, utf8_ascii (by decide)]
    exact stringBytes_eol
  | case6 c d cs _ _ hback hn ih =>
    rw [beq_iff_eq.mp hback, beq_iff_eq.mp hn, utf8_ascii (by decide), utf8_ascii (by decide)]
    refine stringBytes_escapedEol.trans ?_
    rw [ih]
    exact behind_utf8 '\n' _
  | case7 c d cs _ _ hback _ hd ih =>
    have hspecial : d = quote ∨ d = '\\' := by simpa using hd
    refine .trans ?_ (behind_utf8 d _)
    rw [beq_iff_eq.mp hback, utf8_ascii (by decide), ← ih]
    rcases hspecial with rfl | rfl
    · rw [utf8_ascii (by decide)]
      exact stringBytes_escaped (.inl rfl)
    · rw [utf8_ascii (by decide)]
      exact stringBytes_escaped (.inr rfl)
  | case8 c d cs _ _ hback _ _ heol =>
    rw [beq_iff_eq.mp hback, beq_iff_eq.mp heol, utf8_ascii (by decide), utf8_ascii (by decide)]
    exact stringBytes_brokenEscape
  | case9 c d cs _ _ hback hn hd heol =>
    -- The byte behind the backslash is the first of the character, and none of its bytes is
    -- special.
    obtain ⟨e, es, hes, he⟩ := exists_leadByte d
    have hne : ∀ x : Char, x.toNat < 0x80 → d ≠ x → e ≠ UInt8.ofNat x.toNat := fun x hx hdx =>
      ne_of_mem_utf8EncodeChar hx hdx e (by simp [hes])
    simp only [beq_iff_eq, Bool.or_eq_true, not_or] at hn hd heol
    rw [beq_iff_eq.mp hback, utf8_ascii (by decide), utf8_cons, hes, ← he]
    exact stringBytes_badEscape (hne 'n' (by decide) hn) (hne quote (by decide) hd.1)
      (hne '\\' (by decide) hd.2) (hne '\n' (by decide) heol)
  | case10 c d cs hquote heol hback ih =>
    simp only [beq_iff_eq] at hquote heol hback
    rw [utf8_cons, stringBytes_utf8EncodeChar ⟨hquote, hback, heol⟩, ih]
    exact behind_utf8 c _

/-- What the bytes of a body spell is text. -/
theorem stringText_utf8 (line : Nat) (cs : List Char) : stringText line (utf8 cs) =
    (stringBody line cs).map fun p => (some (String.ofList p.1), utf8 p.2) := by
  rw [stringText, stringBytes_utf8]
  cases stringBody line cs with
  | error e => rfl
  | ok p => exact congrArg (fun s => Except.ok (s, utf8 p.2)) (fromUTF8?_utf8 p.1)

/-! ### Quoted strings -/

/-- A string that is escaped between quotes is one token, and what follows is left as it is: read
by characters, and read by bytes. -/
theorem next_quoted (s : String) (rest : List Char) (line : Nat) :
    next (quote :: escape s.toList ++ quote :: rest) line = .ok (.str s, rest, line) ∧
      stringText line (utf8 (escape s.toList) ++ 0x27 :: utf8 rest) = .ok (some s, utf8 rest) := by
  have hbody := stringBody_escape s.toList rest line
  constructor
  · change (stringBody line (escape s.toList ++ quote :: rest)).map _ = _
    rw [hbody]
    simp [Except.map]
  · have hutf8 : utf8 (escape s.toList) ++ 0x27 :: utf8 rest =
        utf8 (escape s.toList ++ quote :: rest) := by
      rw [utf8, utf8, utf8, List.flatMap_append, List.flatMap_cons]
      rfl
    rw [hutf8, stringText_utf8, hbody]
    simp [Except.map]

end Recompiler.IR.Token
