import Recompiler.Proofs.IR.Reading

/-!
Texts and items. A text that is read is a list of valid items, and a listing that is written out is
read as its own items.
-/
namespace Recompiler.IR

/-! ### Names of types and operations -/

theorem sameName_eq (a b : String) :
    Text.sameName a b = (a.toList.map Char.toLower == b.toList.map Char.toLower) := by
  rw [Text.sameName, Bool.eq_iff_iff, beq_iff_eq, beq_iff_eq, ← String.toList_inj,
    String.toList_map, String.toList_map]

theorem mem_all (op : Opcode) : op ∈ Opcode.all := by
  cases op <;> decide

theorem ofName?_tyName (t : Ty) : Ty.ofName? t.name = some t := by
  simp only [Ty.ofName?, sameName_eq]
  cases t <;> decide +kernel

theorem ofName?_opName (op : Opcode) : Opcode.ofName? op.name = some op := by
  simp only [Opcode.ofName?, sameName_eq]
  have h : ∀ op ∈ Opcode.all, (Opcode.all.find? fun o =>
      o.name.toList.map Char.toLower == op.name.toList.map Char.toLower) = some op := by
    decide +kernel
  exact h op (mem_all op)

/-- No operation has the name of a type. -/
theorem tyOfName?_opName (op : Opcode) : Ty.ofName? op.name = none := by
  simp only [Ty.ofName?, sameName_eq]
  have h : ∀ op ∈ Opcode.all, (Ty.all.find? fun t =>
      t.name.toList.map Char.toLower == op.name.toList.map Char.toLower) = none := by
    decide +kernel
  exact h op (mem_all op)

namespace Parser

variable {d d' : Draft} {c c' : Cursor} {t t' : Token} {ts : List Token}

/-! ### Reading yields items -/

/-- Every name from the cursor on is made of word characters. -/
structure Cursor.Lexical (c : Cursor) : Prop where
  current : c.current.token.Lexical
  rest : ∀ t, .ok t ∈ c.rest → t.token.Lexical

theorem Cursor.Lexical.next (h : c.Lexical) (hc : c.next? = some c') : c'.Lexical := by
  obtain ⟨cur, rest⟩ := c
  cases rest with
  | nil =>
    cases hc
    exact h
  | cons x rest =>
    cases x with
    | error e => cases hc
    | ok t =>
      cases hc
      exact ⟨h.rest t (by simp), fun t' ht' => h.rest t' (by simp [ht'])⟩

theorem isLabel_of_labelName? {s name : String} (hs : ∀ c ∈ s.toList, Token.isWord c = true)
    (h : labelName? s = some name) : IsLabel name := by
  unfold labelName? at h
  split at h
  · next c cs he =>
    cases h
    refine ⟨by simp, fun x hx => hs x ?_⟩
    rw [he]
    rw [String.toList_ofList] at hx
    exact List.mem_cons_of_mem _ hx
  · cases h

theorem Spells.lexical {t : Token} {o : Operand} (h : Spells t o) (ht : t.Lexical)
    (hty : o.ty ≠ .str) : o.Lexical := by
  cases t with
  | ident s =>
    cases o with
    | constant k => cases h
    | reference t name => exact isLabel_of_labelName? ht h
  | int bits =>
    cases o with
    | reference t name => cases h
    | constant k =>
      cases k with
      | str s => cases h
      | blk b => cases h
      | _ => rfl
  | str s =>
    cases o with
    | reference t name => cases h
    | constant k =>
      cases h
      exact absurd rfl hty
  | _ => cases o <;> cases h

theorem TakesArgs.lexical {slots : List Slot} {os : List Operand} (h : TakesArgs slots c os c')
    (hc : c.Lexical) : (∀ o ∈ os, o.ty ≠ .str → o.Lexical) ∧ c'.Lexical := by
  induction h with
  | nil => exact ⟨by simp, hc⟩
  | @cons slot slots o os s c c₁ c₂ c₃ c' _ comma _ _ next₁ spells next₂ _ ih =>
    have hc₁ : c₁.Lexical := by
      split at comma
      · exact comma ▸ hc
      · exact hc.next comma.2
    obtain ⟨hos, hc'⟩ := ih ((hc₁.next next₁).next next₂)
    refine ⟨fun x hx => ?_, hc'⟩
    rcases List.mem_cons.mp hx with rfl | hx
    · exact spells.lexical (hc₁.next next₁).current
    · exact hos x hx

theorem TakesHead.lexical {op : Opcode} {result : Option (Ty × String)}
    (h : TakesHead c op c' result) (hc : c.Lexical) :
    (∀ r ∈ result, IsLabel r.2) ∧ c'.Lexical := by
  cases result with
  | none =>
    obtain ⟨s, -, -, -, hnext⟩ := h
    exact ⟨by simp, hc.next hnext⟩
  | some r =>
    obtain ⟨s, s', s'', c₁, c₂, c₃, -, -, h₁, ht, hs, h₂, -, h₃, -, -, h₄⟩ := h
    have hc₁ := hc.next h₁
    refine ⟨fun x hx => ?_, ((hc₁.next h₂).next h₃).next h₄⟩
    cases hx
    have hlex := hc₁.current
    rw [ht] at hlex
    exact isLabel_of_labelName? hlex hs

theorem reads_block_valid (h : Reads block d c () d' c') (hc : c.Lexical) :
    ∃ it : Item, it.Valid ∧ d.Fits it ∧ d.add it = d' ∧ c'.Lexical := by
  obtain ⟨s, name, c₁, ht, hs, h₁, -, h₂, rfl⟩ := reads_block.mp h
  have hlex := hc.current
  rw [ht] at hlex
  exact ⟨.block name, isLabel_of_labelName? hlex hs, trivial, rfl, (hc.next h₁).next h₂⟩

theorem reads_instr_valid (h : Reads instr d c () d' c') (hc : c.Lexical) :
    ∃ it : Item, it.Valid ∧ d.Fits it ∧ d.add it = d' ∧ c'.Lexical := by
  obtain ⟨l, c₁, hhead, hargs, htyped, hfits, rfl⟩ := reads_instr.mp h
  obtain ⟨hresult, hc₁⟩ := hhead.lexical hc
  obtain ⟨hops, hc'⟩ := hargs.lexical hc₁
  exact ⟨.instr l, ⟨⟨hresult, fun o ho => hops o ho (htyped.ne_str ho)⟩, htyped⟩, hfits, rfl, hc'⟩

/-- Whatever is read is a list of items. -/
theorem reads_items_valid {fuel : Nat} (h : Reads (items fuel) d c () d' c') (hc : c.Lexical) :
    ∃ its : List Item, (∀ it ∈ its, it.Valid) ∧ d.FitsAll its ∧ its.foldl Draft.add d = d' := by
  have hmore : ∀ {q : Parse Unit} {fuel : Nat} {d : Draft} {c : Cursor},
      (∀ {d' c'}, Reads q d c () d' c' → ∃ it : Item, it.Valid ∧ d.Fits it ∧ d.add it = d' ∧
        c'.Lexical) →
      (∀ {d c d' c'}, Reads (items fuel) d c () d' c' → c.Lexical →
        ∃ its : List Item, (∀ it ∈ its, it.Valid) ∧ d.FitsAll its ∧ its.foldl Draft.add d = d') →
      ∀ {d' c'}, Reads (do q; items fuel) d c () d' c' →
        ∃ its : List Item, (∀ it ∈ its, it.Valid) ∧ d.FitsAll its ∧ its.foldl Draft.add d = d' := by
    intro q fuel d c hq ih d' c' h
    obtain ⟨_, d₁, c₁, h₁, h⟩ := reads_bind.mp h
    obtain ⟨it, hit, hfits, rfl, hc₁⟩ := hq h₁
    obtain ⟨its, hits, hall, rfl⟩ := ih h hc₁
    exact ⟨it :: its, by simpa using ⟨hit, hits⟩, ⟨hfits, hall⟩, rfl⟩
  induction fuel generalizing d c d' c' with
  | zero =>
    obtain ⟨-, rfl, -⟩ := (reads_pure (x := ()) (y := ())).mp h
    exact ⟨[], by simp, trivial, rfl⟩
  | succ fuel ih =>
    unfold items at h
    rw [reads_peek_bind] at h
    split at h
    · obtain ⟨-, rfl, -⟩ := reads_pure.mp h
      exact ⟨[], by simp, trivial, rfl⟩
    · obtain ⟨t, d₁, c₁, h₁, h⟩ := reads_bind.mp h
      obtain ⟨-, rfl, hnext⟩ := reads_advance.mp h₁
      exact ih h (hc.next hnext)
    · dsimp only at h
      split at h
      · exact hmore (fun hq => reads_block_valid hq hc) (fun hi => ih hi) h
      · exact hmore (fun hq => reads_instr_valid hq hc) (fun hi => ih hi) h
    · exact hmore (fun hq => reads_instr_valid hq hc) (fun hi => ih hi) h

/-- A text that is read is made of valid items, and is the fragment that they describe. -/
theorem items_of_parse {src : String} {f : Fragment} (h : parse src = .ok f) :
    ∃ its : List Item, (∀ it ∈ its, it.Valid) ∧ Draft.FitsAll {} its ∧ assemble its = some f := by
  unfold parse at h
  dsimp only at h
  split at h
  · cases h
    exact ⟨[], by simp, trivial, rfl⟩
  · cases h
  · next t rest hscan =>
    have hlex : Cursor.Lexical ⟨t, rest⟩ := by
      have hall : ∀ p, .ok p ∈ Token.scan src.toList → p.token.Lexical := fun p hp =>
        Token.stream_lexical hp
      rw [hscan] at hall
      exact ⟨hall t (by simp), fun p hp => hall p (by simp [hp])⟩
    split at h
    · next s hrun =>
      cases h
      have hreads : Reads (program ((Token.scan src.toList).length + 1)) {} ⟨t, rest⟩ ()
          ⟨s.fragment, s.references⟩ ⟨s.current, s.rest⟩ := hrun
      obtain ⟨d₁, f, hitems, hf, hd⟩ := reads_program.mp hreads
      obtain ⟨its, hits, hfits, rfl⟩ := reads_items_valid hitems hlex
      refine ⟨its, hits, hfits, ?_⟩
      rw [assemble, hf]
      exact congrArg (some ·.fragment) hd
    · cases h

/-! ### Listings yield their items -/

theorem labelName?_labelChars {name : String} (h : IsLabel name) :
    labelName? (String.ofList (labelChars name)) = some name := by
  unfold labelName?
  rw [String.toList_ofList, labelChars]
  cases hn : name.toList with
  | nil => exact absurd (String.toList_eq_nil_iff.mp hn) h.1
  | cons c cs =>
    change some (String.ofList (c :: cs)) = some name
    rw [← hn, String.ofList_toList]

/-! ### Tokens ahead of a cursor -/

/-- The tokens from the cursor on. -/
def Cursor.Ahead (c : Cursor) (ts : List Token) : Prop :=
  ∃ ps : List Token.Placed, .ok c.current :: c.rest = ps.map .ok ∧ ps.map (·.token) = ts

theorem Cursor.Ahead.current (h : c.Ahead (t :: ts)) : c.current.token = t := by
  obtain ⟨cur, rest⟩ := c
  obtain ⟨ps, hps, hts⟩ := h
  cases ps with
  | nil => cases hts
  | cons p ps =>
    cases hps
    cases hts
    rfl

theorem Cursor.Ahead.next (h : c.Ahead (t :: t' :: ts)) :
    ∃ c', c.next? = some c' ∧ c'.Ahead (t' :: ts) := by
  obtain ⟨ps, hps, hts⟩ := h
  match ps, hts with
  | p :: q :: ps, hts =>
    obtain ⟨cur, rest⟩ := c
    cases hps
    cases hts
    exact ⟨⟨q, ps.map .ok⟩, rfl, q :: ps, rfl, rfl⟩

/-! ### Lines -/

theorem spells_token {o : Operand} (ho : o.Lexical) : Spells o.token o := by
  cases o with
  | reference ty name => exact labelName?_labelChars ho
  | constant k =>
    cases k with
    | str s => cases ho
    | blk b => cases ho
    | _ => simp [Operand.token, Spells, Constant.ofBits?, Constant.ty, Constant.bits?]

/-- Operands, each behind a comma. -/
theorem takesArgs_tail {slots : List Slot} {os : List Operand} (hslots : ∀ s ∈ slots, s ≠ 0)
    (hos : ∀ o ∈ os, o.Lexical) (hlen : os.length ≤ slots.length) (ht : t = .eol ∨ t = .eof)
    (h : c.Ahead (os.flatMap (fun o => .op ',' :: o.tokens) ++ t :: ts)) :
    ∃ c', TakesArgs slots c os c' ∧ c'.Ahead (t :: ts) := by
  induction os generalizing slots c with
  | nil =>
    refine ⟨c, .nil ?_, h⟩
    rw [Cursor.AtEnd, h.current]
    exact ht
  | cons o os ih =>
    cases slots with
    | nil => simp at hlen
    | cons slot slots =>
      have hcur := h.current
      obtain ⟨c₁, hc₁, h₁⟩ := h.next
      obtain ⟨c₂, hc₂, h₂⟩ := h₁.next
      have hrest : ∃ c₃, c₂.next? = some c₃ ∧
          c₃.Ahead (os.flatMap (fun o => .op ',' :: o.tokens) ++ t :: ts) := by
        cases os with
        | nil => exact h₂.next
        | cons o' os => exact h₂.next
      obtain ⟨c₃, hc₃, h₃⟩ := hrest
      have hslots' : ∀ s ∈ slots, s ≠ 0 := fun s hs => hslots s (by simp [hs])
      obtain ⟨c', htail, h'⟩ := ih hslots'
        (fun x hx => hos x (by simp [hx])) (by simpa using hlen) h₃
      refine ⟨c', .cons ?_ ?_ h₁.current (ofName?_tyName o.ty) hc₂ ?_ hc₃ htail, h'⟩
      · simp [Cursor.AtEnd, hcur]
      · rw [if_neg (hslots slot (by simp))]
        exact ⟨hcur, hc₁⟩
      · rw [h₂.current]
        exact spells_token (hos o (by simp))

theorem listTokens_cons (o : Operand) (os : List Operand) :
    Operand.listTokens (o :: os) = o.tokens ++ os.flatMap (fun o => .op ',' :: o.tokens) := by
  unfold Operand.listTokens
  induction os generalizing o with
  | nil => simp
  | cons o' os ih =>
    rw [List.map_cons, List.map_cons, List.intercalate_cons_cons, ← List.map_cons, ih]
    simp

theorem takesArgs {os : List Operand} (hos : ∀ o ∈ os, o.Lexical) (hlen : os.length ≤ 3)
    (ht : t = .eol ∨ t = .eof) (h : c.Ahead (Operand.listTokens os ++ t :: ts)) :
    ∃ c', TakesArgs (List.finRange 3) c os c' ∧ c'.Ahead (t :: ts) := by
  cases os with
  | nil =>
    refine ⟨c, .nil ?_, h⟩
    rw [Cursor.AtEnd, (h : c.Ahead (t :: ts)).current]
    exact ht
  | cons o os =>
    rw [listTokens_cons, List.append_assoc] at h
    have hcur : c.current.token = .ident o.ty.name := h.current
    obtain ⟨c₂, hc₂, h₂⟩ : ∃ c₂, c.next? = some c₂ ∧
      c₂.Ahead (o.token :: (os.flatMap (fun o => .op ',' :: o.tokens) ++ t :: ts)) := h.next
    have hrest : ∃ c₃, c₂.next? = some c₃ ∧
        c₃.Ahead (os.flatMap (fun o => .op ',' :: o.tokens) ++ t :: ts) := by
      cases os with
      | nil => exact h₂.next
      | cons o' os => exact h₂.next
    obtain ⟨c₃, hc₃, h₃⟩ := hrest
    obtain ⟨c', htail, h'⟩ := takesArgs_tail (by decide : ∀ s ∈ ([1, 2] : List Slot), s ≠ 0)
      (fun x hx => hos x (by simp [hx])) (Nat.le_of_succ_le_succ hlen) ht h₃
    have hslots : List.finRange 3 = [0, 1, 2] := rfl
    rw [hslots]
    refine ⟨c', .cons ?_ (if_pos rfl ▸ rfl) hcur (ofName?_tyName o.ty) hc₂ ?_ hc₃ htail, h'⟩
    · simp [Cursor.AtEnd, hcur]
    · rw [h₂.current]
      exact spells_token (hos o (by simp))

theorem takesHead {op : Opcode} {result : Option (Ty × String)} (hr : ∀ r ∈ result, IsLabel r.2)
    (h : c.Ahead (Line.resultTokens result ++ .ident op.name :: t :: ts)) :
    ∃ c', TakesHead c op c' result ∧ c'.Ahead (t :: ts) := by
  cases result with
  | none =>
    have hcur : c.current.token = .ident op.name := h.current
    obtain ⟨c', hc', h'⟩ : ∃ c', c.next? = some c' ∧ c'.Ahead (t :: ts) := h.next
    exact ⟨c', ⟨_, hcur, tyOfName?_opName op, ofName?_opName op, hc'⟩, h'⟩
  | some r =>
    have hcur : c.current.token = .ident r.1.name := h.current
    obtain ⟨c₁, hc₁, h₁⟩ := h.next
    obtain ⟨c₂, hc₂, h₂⟩ := h₁.next
    obtain ⟨c₃, hc₃, h₃⟩ := h₂.next
    obtain ⟨c', hc', h'⟩ : ∃ c', c₃.next? = some c' ∧ c'.Ahead (t :: ts) := h₃.next
    exact ⟨c', ⟨_, _, _, c₁, c₂, c₃, hcur, ofName?_tyName r.1, hc₁, h₁.current,
      labelName?_labelChars (hr r rfl), hc₂, h₂.current, hc₃, h₃.current,
        ofName?_opName op, hc'⟩, h'⟩

/-! ### Items -/

theorem startsWith_label (name : String) :
    (String.ofList (labelChars name)).startsWith "%" = true := by
  rw [String.startsWith_string_iff]
  exact ⟨name.toList, by simp [labelChars]⟩

/-- A name that starts no label. -/
theorem startsWith_name {s : String} (hne : s.toList.head? ≠ some '%') :
    s.startsWith "%" = false := by
  rw [← Bool.not_eq_true, String.startsWith_string_iff]
  rintro ⟨r, hr⟩
  rw [← hr] at hne
  exact hne rfl

theorem head_ty (t : Ty) : t.name.toList.head? ≠ some '%' := by
  cases t <;> decide

theorem head_op (op : Opcode) : op.name.toList.head? ≠ some '%' := by
  have h : ∀ op ∈ Opcode.all, op.name.toList.head? ≠ some '%' := by decide +kernel
  exact h op (mem_all op)

theorem reads_block_tokens {name : String} (hname : IsLabel name)
    (h : c.Ahead (labelToken name :: .op ':' :: t :: ts)) :
    ∃ c', Reads block d c () (d.addBlock name) c' ∧ c'.Ahead (t :: ts) := by
  obtain ⟨c₁, hc₁, h₁⟩ := h.next
  obtain ⟨c', hc', h'⟩ := h₁.next
  exact ⟨c', reads_block.mpr ⟨_, name, c₁, h.current, labelName?_labelChars hname, hc₁, h₁.current,
    hc', rfl⟩, h'⟩

theorem reads_instr_tokens {l : Line} (hl : l.Lexical) (htyped : l.Typed)
    (hfits : d.Fits (.instr l)) (ht : t = .eol ∨ t = .eof) (h : c.Ahead (l.tokens ++ t :: ts)) :
    ∃ c', Reads instr d c () (d.addLine l) c' ∧ c'.Ahead (t :: ts) := by
  rw [Line.tokens, List.append_assoc, List.cons_append] at h
  have hhead : ∃ c₁, TakesHead c l.op c₁ l.result ∧
      c₁.Ahead (Operand.listTokens l.args ++ t :: ts) := by
    cases ha : Operand.listTokens l.args with
    | nil =>
      rw [ha] at h
      exact takesHead hl.result h
    | cons t' ts' =>
      rw [ha] at h
      exact takesHead hl.result h
  obtain ⟨c₁, hc₁, h₁⟩ := hhead
  obtain ⟨c', hc', h'⟩ := takesArgs hl.args htyped.length_args_le ht h₁
  exact ⟨c', reads_instr.mpr ⟨l, c₁, hc₁, hc', htyped, hfits, rfl⟩, h'⟩

/-- The reader takes items, each closed by a line end, one after the other. -/
theorem reads_items_tokens {its : List Item} {fuel : Nat} (hits : ∀ it ∈ its, it.Valid)
    (hfits : d.FitsAll its) (hfuel : 2 * its.length < fuel)
    (h : c.Ahead (its.flatMap (·.tokens ++ [.eol]) ++ [.eof])) :
    ∃ c', Reads (items fuel) d c () (its.foldl Draft.add d) c' := by
  induction its generalizing c d fuel with
  | nil =>
    obtain ⟨fuel, rfl⟩ : ∃ k, fuel = k + 1 := ⟨fuel - 1, by simp at hfuel; omega⟩
    refine ⟨c, ?_⟩
    unfold items
    rw [reads_peek_bind, (h : c.Ahead [.eof]).current]
    exact reads_pure.mpr ⟨rfl, rfl, rfl⟩
  | cons it its ih =>
    obtain ⟨fuel, rfl⟩ : ∃ k, fuel = k + 2 := ⟨fuel - 2, by simp at hfuel; omega⟩
    -- Past the item the reader stands at the line end, and takes it in a turn of its own.
    have hrest : ∀ c₁ : Cursor,
        c₁.Ahead (.eol :: (its.flatMap (·.tokens ++ [.eol]) ++ [.eof])) →
        ∃ c', Reads (items (fuel + 1)) (d.add it) c₁ () (its.foldl Draft.add (d.add it)) c' := by
      intro c₁ h₁
      have hnext : ∃ c₂, c₁.next? = some c₂ ∧
          c₂.Ahead (its.flatMap (·.tokens ++ [.eol]) ++ [.eof]) := by
        cases ha : its.flatMap (·.tokens ++ [.eol]) with
        | nil =>
          rw [ha] at h₁
          exact h₁.next
        | cons t ts =>
          rw [ha] at h₁
          exact h₁.next
      obtain ⟨c₂, hc₂, h₂⟩ := hnext
      have hless : 2 * its.length < fuel := by
        simp only [List.length_cons] at hfuel
        omega
      obtain ⟨c', hc'⟩ := ih (fun x hx => hits x (by simp [hx])) hfits.2 hless h₂
      refine ⟨c', ?_⟩
      unfold items
      rw [reads_peek_bind, h₁.current]
      exact reads_bind.mpr ⟨_, _, _, reads_advance.mpr ⟨rfl, rfl, hc₂⟩, hc'⟩
    have hit := hits it (by simp)
    rw [List.flatMap_cons, List.append_assoc, List.append_assoc] at h
    cases it with
    | block name =>
      obtain ⟨c₁, hreads, h₁⟩ := reads_block_tokens (d := d) hit h
      obtain ⟨c', hc'⟩ := hrest c₁ h₁
      refine ⟨c', ?_⟩
      unfold items
      rw [reads_peek_bind, h.current]
      dsimp only [labelToken]
      rw [if_pos (startsWith_label name)]
      exact reads_bind.mpr ⟨_, _, _, hreads, hc'⟩
    | instr l =>
      obtain ⟨c₁, hreads, h₁⟩ := reads_instr_tokens hit.1 hit.2 hfits.1 (.inl rfl) h
      obtain ⟨c', hc'⟩ := hrest c₁ h₁
      obtain ⟨s, hs, hstart⟩ : ∃ s, c.current.token = .ident s ∧ s.startsWith "%" = false := by
        rw [Item.tokens, Line.tokens] at h
        cases hr : l.result with
        | none =>
          rw [hr] at h
          exact ⟨_, h.current, startsWith_name (head_op l.op)⟩
        | some r =>
          rw [hr] at h
          exact ⟨_, h.current, startsWith_name (head_ty r.1)⟩
      refine ⟨c', ?_⟩
      unfold items
      rw [reads_peek_bind, hs]
      dsimp only
      rw [if_neg (by simpa using hstart)]
      exact reads_bind.mpr ⟨_, _, _, hreads, hc'⟩

/-! ### Listings -/

theorem tokens_items (ps : List Paragraph) : ps.flatMap Paragraph.tokens =
    (ps.flatMap Paragraph.items).flatMap (·.tokens ++ [.eol]) := by
  rw [List.flatMap_assoc]
  congr 1
  funext p
  rw [Paragraph.tokens, Paragraph.items, List.flatMap_cons, List.flatMap_map]
  rfl

theorem two_le_tokens (it : Item) : 2 ≤ (it.tokens ++ [Token.eol]).length := by
  cases it with
  | block name => simp [Item.tokens]
  | instr l =>
    simp only [Item.tokens, Line.tokens, List.length_append, List.length_cons]
    omega

theorem two_mul_length_le (its : List Item) :
    2 * its.length ≤ (its.flatMap (·.tokens ++ [.eol])).length := by
  induction its with
  | nil => simp
  | cons it its ih =>
    have := two_le_tokens it
    simp only [List.flatMap_cons, List.length_append, List.length_cons] at this ih ⊢
    omega

/-- A listing of valid items that is written out is read as the fragment that they describe. -/
theorem parse_of_listing {ps : List Paragraph} {src : String} {f : Fragment}
    (hits : ∀ it ∈ ps.flatMap Paragraph.items, it.Valid)
    (hfits : Draft.FitsAll {} (ps.flatMap Paragraph.items))
    (hsrc : src.toList = ps.flatMap Paragraph.chars)
    (hf : assemble (ps.flatMap Paragraph.items) = some f) : parse src = .ok f := by
  have hlex : ∀ p ∈ ps, p.Lexical := by
    intro p hp
    have hmem :
      ∀ it ∈ p.items, it.Valid := fun it hit => hits it (List.mem_flatMap.mpr ⟨p, hp, hit⟩)
    exact ⟨hmem (.block p.name) (by simp [Paragraph.items]),
      fun l hl => (hmem (.instr l) (by simp [Paragraph.items, hl])).1⟩
  obtain ⟨qs, hstream, hqs⟩ := (lexes_listing hlex).stream (Nat.lt_succ_self _) 1
  have hscan : Token.scan src.toList = qs.map .ok := by
    rw [hsrc]
    exact hstream
  cases qs with
  | nil => simp at hqs
  | cons q qs =>
    have hahead : Cursor.Ahead ⟨q, qs.map .ok⟩ (ps.flatMap Paragraph.tokens ++ [.eof]) :=
      ⟨q :: qs, rfl, hqs⟩
    have hlen : 2 * (ps.flatMap Paragraph.items).length < (Token.scan src.toList).length + 1 := by
      have hle := two_mul_length_le (ps.flatMap Paragraph.items)
      have hcount := congrArg List.length hqs
      rw [← tokens_items] at hle
      rw [hscan]
      simp only [List.length_map, List.length_append, List.length_cons] at hcount ⊢
      omega
    rw [tokens_items] at hahead
    obtain ⟨c', hc'⟩ := reads_items_tokens hits hfits hlen hahead
    have hprogram := reads_program.mpr ⟨_, f, hc', hf, rfl⟩
    unfold parse
    dsimp only
    rw [hscan] at hprogram ⊢
    have hrun : (program ((List.map Except.ok (q :: qs)).length + 1)).run
        { current := q, rest := qs.map .ok } = (.ok (), _) := hprogram
    rw [List.map_cons] at hrun ⊢
    dsimp only
    rw [hrun]
    rfl

end Parser
end Recompiler.IR
