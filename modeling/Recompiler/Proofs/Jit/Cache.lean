import Mathlib
import Recompiler.Jit.Cache

/-!
A cache seen from outside: the block at an address, the block that an exit leads to, and the exits
that a block has recorded. Every operation on the cache is a change of these three.
-/
namespace Recompiler.Jit.Cache

variable (c : Cache)

/-- The block that an exit leads to. -/
def target? (e : Edge) : Option UInt32 := ((c.get? e.source).bind fun b => b.links[e.slot]?).join

/-- The exits that the block at an address has recorded as leading there. -/
def incoming (addr : UInt32) : List Edge := ((c.get? addr).map Block.incoming).getD []

theorem lookup_eq_some_iff {addr : UInt32} {code : Nat} :
    c.lookup addr = some code ↔ ∃ b, c.get? addr = some b ∧ b.code = some code := by
  unfold lookup
  exact Option.bind_eq_some_iff

theorem target?_eq_some_iff {e : Edge} {dst : UInt32} :
    c.target? e = some dst ↔ ∃ b, c.get? e.source = some b ∧
      b.links[e.slot]? = some (some dst) := by
  unfold target?
  rw [Option.join_eq_some_iff, Option.bind_eq_some_iff]

theorem mem_incoming_iff {e : Edge} {dst : UInt32} :
    e ∈ c.incoming dst ↔ ∃ b, c.get? dst = some b ∧ e ∈ b.incoming := by
  unfold incoming
  cases c.get? dst <;> simp

theorem get?_addr {addr : UInt32} {b : Block} (h : c.get? addr = some b) : b.addr = addr := by
  unfold get? at h
  simpa using List.find?_some h

/-! ### Changes of one block -/

theorem get?_modify {g : Block → Block} (hg : ∀ b, (g b).addr = b.addr) (addr x : UInt32) :
    (c.modify addr g).get? x = if x = addr then (c.get? x).map g else c.get? x := by
  unfold get? modify
  rw [List.find?_map]
  have haddr :
    (fun b : Block => decide (b.addr = x)) ∘ (fun b => if b.addr = addr then g b else b) =
      fun b => decide (b.addr = x) := by
    funext b
    by_cases hb : b.addr = addr
    · simp [hb, hg]
    · simp [hb]
  rw [haddr]
  cases hfind : c.blocks.find? fun b => decide (b.addr = x) with
  | none => simp
  | some b =>
    have hb : b.addr = x := by simpa using List.find?_some hfind
    by_cases hx : x = addr
    · simp [hb, hx]
    · simp [hb, hx]

/-- A change that keeps the code is not seen by a look-up. -/
theorem lookup_modify {g : Block → Block} (hg : ∀ b, (g b).addr = b.addr)
    (hcode : ∀ b, (g b).code = b.code) (addr x : UInt32) :
    (c.modify addr g).lookup x = c.lookup x := by
  unfold lookup
  rw [c.get?_modify hg]
  by_cases hx : x = addr
  · rw [if_pos hx]
    cases c.get? x <;> simp [hcode]
  · rw [if_neg hx]

/-- A change that keeps the links is not seen along an exit. -/
theorem target?_modify {g : Block → Block} (hg : ∀ b, (g b).addr = b.addr)
    (hlinks : ∀ b, (g b).links = b.links) (addr : UInt32) (e : Edge) :
    (c.modify addr g).target? e = c.target? e := by
  unfold target?
  rw [c.get?_modify hg]
  by_cases hx : e.source = addr
  · rw [if_pos hx]
    cases c.get? e.source <;> simp [hlinks]
  · rw [if_neg hx]

theorem incoming_modify {g : Block → Block} (hg : ∀ b, (g b).addr = b.addr)
    (hin : ∀ b, (g b).incoming = b.incoming) (addr x : UInt32) :
    (c.modify addr g).incoming x = c.incoming x := by
  unfold incoming
  rw [c.get?_modify hg]
  by_cases hx : x = addr
  · rw [if_pos hx]
    cases c.get? x <;> simp [hin]
  · rw [if_neg hx]

/-- A change of the recorded exits alone. -/
theorem incoming_modify_incoming {h : List Edge → List Edge} (hnil : h [] = []) (addr x : UInt32) :
    (c.modify addr fun b => { b with incoming := h b.incoming }).incoming x =
      if x = addr then h (c.incoming x) else c.incoming x := by
  unfold incoming
  rw [c.get?_modify (g := fun b => { b with incoming := h b.incoming }) fun _ => rfl]
  by_cases hx : x = addr
  · rw [if_pos hx, if_pos hx]
    cases c.get? x <;> simp [hnil]
  · rw [if_neg hx, if_neg hx]

/-! ### One end of an edge -/

@[simp] theorem lookup_dropIncoming (dst : UInt32) (e : Edge) (x : UInt32) :
    (c.dropIncoming dst e).lookup x = c.lookup x := by
  unfold dropIncoming
  apply c.lookup_modify <;> exact fun _ => rfl

@[simp] theorem target?_dropIncoming (dst : UInt32) (e e' : Edge) :
    (c.dropIncoming dst e).target? e' = c.target? e' := by
  unfold dropIncoming
  apply c.target?_modify <;> exact fun _ => rfl

theorem incoming_dropIncoming (dst : UInt32) (e : Edge) (x : UInt32) :
    (c.dropIncoming dst e).incoming x =
      if x = dst then (c.incoming x).filter (· ≠ e) else c.incoming x :=
  c.incoming_modify_incoming (h := fun l => l.filter (· ≠ e)) rfl dst x

/-- What `dropLink` does to the source of the exit. -/
private def unlink (e : Edge) (dst : UInt32) (b : Block) : Block :=
  if b.links[e.slot]? = some (some dst) then b.setLink e.slot none else b

private theorem unlink_addr (e : Edge) (dst : UInt32) (b : Block) :
    (unlink e dst b).addr = b.addr := by
  unfold unlink
  split <;> rfl

@[simp] theorem lookup_dropLink (e : Edge) (dst x : UInt32) :
    (c.dropLink e dst).lookup x = c.lookup x := by
  apply c.lookup_modify (g := unlink e dst) (unlink_addr e dst)
  intro b
  unfold unlink
  split <;> rfl

@[simp] theorem incoming_dropLink (e : Edge) (dst x : UInt32) :
    (c.dropLink e dst).incoming x = c.incoming x := by
  apply c.incoming_modify (g := unlink e dst) (unlink_addr e dst)
  intro b
  unfold unlink
  split <;> rfl

theorem target?_dropLink (e : Edge) (dst : UInt32) (e' : Edge) :
    (c.dropLink e dst).target? e' =
      if e' = e ∧ c.target? e' = some dst then none else c.target? e' := by
  have hget := c.get?_modify (g := unlink e dst) (unlink_addr e dst) e.source e'.source
  change ((((c.modify e.source (unlink e dst)).get? e'.source).bind fun b =>
    b.links[e'.slot]?).join) = _
  rw [hget]
  by_cases hsource : e'.source = e.source
  · rw [if_pos hsource]
    unfold target?
    cases hb : c.get? e'.source with
    | none => simp
    | some b =>
      simp only [Option.map_some, Option.bind_some]
      by_cases hslot : e'.slot = e.slot
      · have he : e' = e := by
          cases e
          cases e'
          cases hsource
          cases hslot
          rfl
        subst he
        by_cases hlink : b.links[e'.slot]? = some (some dst)
        · have hlt : e'.slot < b.links.length := (List.getElem?_eq_some_iff.mp hlink).1
          have hset : (unlink e' dst b).links = b.links.set e'.slot none := by
            unfold unlink
            rw [if_pos hlink]
            rfl
          rw [if_pos ⟨rfl, by rw [hlink]; rfl⟩, hset, List.getElem?_set_self hlt]
          rfl
        · have hkeep : unlink e' dst b = b := if_neg hlink
          have hjoin : b.links[e'.slot]?.join ≠ some dst := by
            rw [Ne, Option.join_eq_some_iff]
            exact hlink
          rw [hkeep, if_neg fun h => hjoin h.2]
      · have hne : ¬ e' = e := fun h => hslot (congrArg Edge.slot h)
        have hkeep : (unlink e dst b).links[e'.slot]? = b.links[e'.slot]? := by
          unfold unlink
          split
          · exact List.getElem?_set_ne fun h => hslot h.symm
          · rfl
        rw [if_neg fun h => hne h.1, hkeep]
  · have hne : ¬ e' = e := fun h => hsource (congrArg Edge.source h)
    rw [if_neg hsource, if_neg fun h => hne h.1]
    rfl

/-! ### Insertion, removal and the list of hosts -/

theorem find?_insertSorted (b : Block) (l : List Block) (x : UInt32)
    (habsent : l.find? (fun a => decide (a.addr = b.addr)) = none) :
    (insertSorted b l).find? (fun a => decide (a.addr = x)) =
      if x = b.addr then some b else l.find? fun a => decide (a.addr = x) := by
  induction l with
  | nil =>
    unfold insertSorted
    by_cases hx : x = b.addr
    · simp [hx]
    · simp [hx, Ne.symm hx]
  | cons a l ih =>
    have ha : a.addr ≠ b.addr := by
      intro h
      simp [h] at habsent
    have hl : l.find? (fun a => decide (a.addr = b.addr)) = none := by
      simpa [List.find?_cons, ha] using habsent
    unfold insertSorted
    split
    · by_cases hx : x = b.addr
      · simp [hx]
      · simp [hx, Ne.symm hx]
    · rw [List.find?_cons, ih hl]
      by_cases hx : x = b.addr
      · simp [hx, ha]
      · simp only [hx, if_false]
        rw [List.find?_cons]

/-- Insertion asks for a block without edges at a free address, and for nothing else. -/
theorem insert_eq_ok_iff {b : Block} {c' : Cache} :
    c.insert b = .ok c' ↔ (b.incoming = [] ∧ (∀ l ∈ b.links, l = none) ∧ c.get? b.addr = none) ∧
      c' = { blocks := insertSorted b c.blocks
             hosts := if b.isStale then c.hosts
               else (b.hostAddr, b.addr) :: c.hosts.filter fun h => h.1 ≠ b.hostAddr } := by
  have hedges : (!b.incoming.isEmpty || b.links.any Option.isSome) = true ↔
      ¬ (b.incoming = [] ∧ ∀ l ∈ b.links, l = none) := by
    simp only [Bool.or_eq_true, Bool.not_eq_true', List.isEmpty_eq_false_iff, List.any_eq_true,
      Option.isSome_iff_ne_none, not_and_or, not_forall, exists_prop, ne_eq]
  unfold insert
  by_cases hlive : b.incoming = [] ∧ ∀ l ∈ b.links, l = none
  · rw [if_neg (fun h => hedges.mp h hlive)]
    cases hget : c.get? b.addr with
    | none =>
      rw [if_neg (by simp)]
      constructor
      · intro h
        cases h
        exact ⟨⟨hlive.1, hlive.2, rfl⟩, rfl⟩
      · rintro ⟨-, rfl⟩
        rfl
    | some a => simp
  · rw [if_pos (hedges.mpr hlive)]
    constructor
    · intro h
      cases h
    · rintro ⟨⟨hin, hlinks, -⟩, -⟩
      exact absurd ⟨hin, hlinks⟩ hlive

theorem get?_insert {b : Block} {c' : Cache} (h : c.insert b = .ok c') (x : UInt32) :
    c'.get? x = if x = b.addr then some b else c.get? x := by
  obtain ⟨⟨-, -, habsent⟩, rfl⟩ := c.insert_eq_ok_iff.mp h
  exact find?_insertSorted b c.blocks x habsent

/-- The cache without the entry at an address. -/
def forget (addr : UInt32) : Cache := { c with blocks := c.blocks.filter fun b => b.addr ≠ addr }

theorem remove_eq (addr : UInt32) :
    c.remove addr = ((c.invalidate addr).1.forget addr, (c.invalidate addr).2) := rfl

theorem get?_forget (addr x : UInt32) :
    (c.forget addr).get? x = if x = addr then none else c.get? x := by
  unfold get? forget
  rw [List.find?_filter]
  by_cases hx : x = addr
  · rw [if_pos hx, List.find?_eq_none]
    intro b _ hb
    simp [hx] at hb
  · rw [if_neg hx]
    congr 1
    funext b
    by_cases hb : b.addr = x
    · simp [hb, hx]
    · simp [hb]

@[simp] theorem get?_dropHost (b : Block) (x : UInt32) : (c.dropHost b).get? x = c.get? x := by
  unfold dropHost
  split <;> rfl

@[simp] theorem get?_empty (x : UInt32) : ({} : Cache).get? x = none := rfl

end Recompiler.Jit.Cache
