import Recompiler.Proofs.Jit.Cache

/-!
The edges between cached blocks. An edge is recorded at both of its ends, and every operation on the
cache changes the two ends together: an exit leads to a block exactly when the block has recorded
the exit, and only runnable blocks have edges.
-/
namespace Recompiler.Jit.Cache

variable {c : Cache}

/-! ### Operations on both ends -/

theorem foldl_dropLink (es : List Edge) (dst : UInt32) (c : Cache) :
    (∀ x, (es.foldl (fun c e => c.dropLink e dst) c).lookup x = c.lookup x) ∧
    (∀ x, (es.foldl (fun c e => c.dropLink e dst) c).incoming x = c.incoming x) ∧
    ∀ e, (es.foldl (fun c e => c.dropLink e dst) c).target? e =
      if e ∈ es ∧ c.target? e = some dst then none else c.target? e := by
  induction es generalizing c with
  | nil => simp
  | cons d es ih =>
    obtain ⟨hcode, hin, htarget⟩ := ih (c.dropLink d dst)
    refine ⟨fun x => ?_, fun x => ?_, fun e => ?_⟩
    · rw [List.foldl_cons, hcode, lookup_dropLink]
    · rw [List.foldl_cons, hin, incoming_dropLink]
    · rw [List.foldl_cons, htarget, target?_dropLink]
      by_cases hd : e = d
      · simp [hd]
      · simp [hd]

theorem foldl_dropIncoming (out : List (Nat × UInt32)) (addr : UInt32) (c : Cache) :
    (∀ x, (out.foldl (fun c (slot, dst) => c.dropIncoming dst ⟨addr, slot⟩) c).lookup x =
      c.lookup x) ∧
    (∀ e, (out.foldl (fun c (slot, dst) => c.dropIncoming dst ⟨addr, slot⟩) c).target? e =
      c.target? e) ∧
    ∀ x, (out.foldl (fun c (slot, dst) => c.dropIncoming dst ⟨addr, slot⟩) c).incoming x =
      (c.incoming x).filter fun e => ¬ (e.source = addr ∧ (e.slot, x) ∈ out) := by
  induction out generalizing c with
  | nil => simp
  | cons o out ih =>
    obtain ⟨slot, dst⟩ := o
    obtain ⟨hcode, htarget, hin⟩ := ih (c.dropIncoming dst ⟨addr, slot⟩)
    refine ⟨fun x => ?_, fun e => ?_, fun x => ?_⟩
    · rw [List.foldl_cons, hcode, lookup_dropIncoming]
    · rw [List.foldl_cons, htarget, target?_dropIncoming]
    · rw [List.foldl_cons, hin, incoming_dropIncoming]
      by_cases hx : x = dst
      · rw [if_pos hx, List.filter_filter]
        apply List.filter_congr
        intro e _
        obtain ⟨source, n⟩ := e
        by_cases hs : source = addr <;> by_cases hn : n = slot <;> simp [hs, hn, hx]
      · rw [if_neg hx]
        apply List.filter_congr
        intro e _
        simp [hx]

theorem mem_outgoing {b : Block} {slot : Nat} {dst : UInt32} :
    (slot, dst) ∈ b.outgoing ↔ b.links[slot]? = some (some dst) := by
  unfold Block.outgoing
  rw [List.mem_filterMap]
  constructor
  · rintro ⟨⟨link, n⟩, hmem, h⟩
    obtain ⟨d, rfl, e⟩ := Option.map_eq_some_iff.mp h
    cases e
    exact (List.mk_mem_zipIdx_iff_getElem?.mp hmem)
  · intro h
    exact ⟨(some dst, slot), List.mk_mem_zipIdx_iff_getElem?.mpr h, rfl⟩

/-- The cache right after a block was cut, before its neighbours know. -/
def cutAt (c : Cache) (b : Block) (addr : UInt32) : Cache := (c.dropHost b).modify addr Block.cut

theorem get?_cutAt {b : Block} {addr : UInt32} (x : UInt32) :
    (c.cutAt b addr).get? x = if x = addr then (c.get? x).map Block.cut else c.get? x := by
  unfold cutAt
  rw [get?_modify _ (g := Block.cut) fun _ => rfl, get?_dropHost]

theorem lookup_cutAt {b : Block} {addr : UInt32} (x : UInt32) :
    (c.cutAt b addr).lookup x = if x = addr then none else c.lookup x := by
  unfold lookup
  rw [get?_cutAt]
  by_cases hx : x = addr
  · rw [if_pos hx, if_pos hx]
    cases c.get? x <;> rfl
  · rw [if_neg hx, if_neg hx]

theorem incoming_cutAt {b : Block} {addr : UInt32} (x : UInt32) :
    (c.cutAt b addr).incoming x = if x = addr then [] else c.incoming x := by
  unfold incoming
  rw [get?_cutAt]
  by_cases hx : x = addr
  · rw [if_pos hx, if_pos hx]
    cases c.get? x <;> rfl
  · rw [if_neg hx, if_neg hx]

theorem target?_cutAt {b : Block} {addr : UInt32} (e : Edge) :
    (c.cutAt b addr).target? e = if e.source = addr then none else c.target? e := by
  unfold target?
  rw [get?_cutAt]
  by_cases hx : e.source = addr
  · rw [if_pos hx, if_pos hx]
    cases c.get? e.source with
    | none => rfl
    | some a =>
      unfold Block.cut
      simp only [Option.map_some, Option.bind_some, List.getElem?_map]
      cases a.links[e.slot]? <;> rfl
  · rw [if_neg hx, if_neg hx]

theorem invalidate_eq {addr : UInt32} {b : Block} (h : c.get? addr = some b) :
    c.invalidate addr = (b.outgoing.foldl (fun c (slot, dst) => c.dropIncoming dst ⟨addr, slot⟩)
      (b.incoming.foldl (fun c e => c.dropLink e addr) (c.cutAt b addr)), b.code) := by
  unfold invalidate
  rw [h]
  rfl

theorem invalidate_of_absent {addr : UInt32} (h : c.get? addr = none) :
    c.invalidate addr = (c, none) := by
  unfold invalidate
  rw [h]

theorem snd_invalidate (c : Cache) (addr : UInt32) : (c.invalidate addr).2 = c.lookup addr := by
  unfold lookup
  cases h : c.get? addr with
  | none => rw [invalidate_of_absent h]; rfl
  | some b => rw [invalidate_eq h]; rfl

theorem lookup_invalidate (c : Cache) (addr x : UInt32) :
    (c.invalidate addr).1.lookup x = if x = addr then none else c.lookup x := by
  cases h : c.get? addr with
  | none =>
    rw [invalidate_of_absent h]
    by_cases hx : x = addr
    · rw [if_pos hx, hx]
      unfold lookup
      rw [h]
      rfl
    · rw [if_neg hx]
  | some b =>
    rw [invalidate_eq h, (foldl_dropIncoming _ _ _).1, (foldl_dropLink _ _ _).1, lookup_cutAt]

theorem incoming_invalidate (c : Cache) (addr x : UInt32) :
    (c.invalidate addr).1.incoming x = if x = addr then [] else
      (c.incoming x).filter fun e => ¬ (e.source = addr ∧ c.target? e = some x) := by
  cases h : c.get? addr with
  | none =>
    rw [invalidate_of_absent h]
    by_cases hx : x = addr
    · rw [if_pos hx, hx]
      unfold incoming
      rw [h]
      rfl
    · rw [if_neg hx, List.filter_eq_self.mpr]
      intro e _
      by_cases hs : e.source = addr
      · have : c.target? e = none := by
          unfold target?
          rw [hs, h]
          rfl
        simp [this]
      · simp [hs]
  | some b =>
    rw [invalidate_eq h, (foldl_dropIncoming _ _ _).2.2, (foldl_dropLink _ _ _).2.1, incoming_cutAt]
    by_cases hx : x = addr
    · rw [if_pos hx, if_pos hx, List.filter_nil]
    · rw [if_neg hx, if_neg hx]
      apply List.filter_congr
      intro e _
      have hout : e.source = addr → ((e.slot, x) ∈ b.outgoing ↔ c.target? e = some x) := by
        intro hs
        rw [mem_outgoing, target?_eq_some_iff, hs, h]
        simp
      by_cases hs : e.source = addr
      · simp [hs, hout hs]
      · simp [hs]

theorem target?_invalidate (c : Cache) (addr : UInt32) (e : Edge) :
    (c.invalidate addr).1.target? e = if e.source = addr then none
      else if e ∈ c.incoming addr ∧ c.target? e = some addr then none else c.target? e := by
  cases h : c.get? addr with
  | none =>
    rw [invalidate_of_absent h]
    have hin : c.incoming addr = [] := by
      unfold incoming
      rw [h]
      rfl
    by_cases hs : e.source = addr
    · rw [if_pos hs]
      unfold target?
      rw [hs, h]
      rfl
    · simp [hs, hin]
  | some b =>
    have hin : c.incoming addr = b.incoming := by
      unfold incoming
      rw [h]
      rfl
    rw [invalidate_eq h, (foldl_dropIncoming _ _ _).2.1, (foldl_dropLink _ _ _).2.2,
      target?_cutAt, hin]
    by_cases hs : e.source = addr
    · simp [hs]
    · simp [hs]

/-! ### The entry goes too -/

theorem lookup_forget (c : Cache) (addr x : UInt32) :
    (c.forget addr).lookup x = if x = addr then none else c.lookup x := by
  unfold lookup
  rw [get?_forget]
  by_cases hx : x = addr
  · rw [if_pos hx, if_pos hx]
    rfl
  · rw [if_neg hx, if_neg hx]

theorem incoming_forget (c : Cache) (addr x : UInt32) :
    (c.forget addr).incoming x = if x = addr then [] else c.incoming x := by
  unfold incoming
  rw [get?_forget]
  by_cases hx : x = addr
  · rw [if_pos hx, if_pos hx]
    rfl
  · rw [if_neg hx, if_neg hx]

theorem target?_forget (c : Cache) (addr : UInt32) (e : Edge) :
    (c.forget addr).target? e = if e.source = addr then none else c.target? e := by
  unfold target?
  rw [get?_forget]
  by_cases hx : e.source = addr
  · rw [if_pos hx, if_pos hx]
    rfl
  · rw [if_neg hx, if_neg hx]

theorem lookup_remove (c : Cache) (addr x : UInt32) :
    (c.remove addr).1.lookup x = if x = addr then none else c.lookup x := by
  rw [remove_eq, lookup_forget, lookup_invalidate]
  by_cases hx : x = addr <;> simp [hx]

/-! ### Insertion -/

theorem lookup_insert {b : Block} {c' : Cache} (h : c.insert b = .ok c') (x : UInt32) :
    c'.lookup x = if x = b.addr then b.code else c.lookup x := by
  unfold lookup
  rw [get?_insert c h]
  by_cases hx : x = b.addr
  · rw [if_pos hx, if_pos hx]
    rfl
  · rw [if_neg hx, if_neg hx]

theorem incoming_insert {b : Block} {c' : Cache} (h : c.insert b = .ok c') (x : UInt32) :
    c'.incoming x = c.incoming x := by
  obtain ⟨⟨hin, -, habsent⟩, -⟩ := c.insert_eq_ok_iff.mp h
  unfold incoming
  rw [get?_insert c h]
  by_cases hx : x = b.addr
  · rw [if_pos hx, hx, habsent]
    simp [hin]
  · rw [if_neg hx]

theorem target?_insert {b : Block} {c' : Cache} (h : c.insert b = .ok c') (e : Edge) :
    c'.target? e = c.target? e := by
  obtain ⟨⟨-, hlinks, habsent⟩, -⟩ := c.insert_eq_ok_iff.mp h
  unfold target?
  rw [get?_insert c h]
  by_cases hx : e.source = b.addr
  · rw [if_pos hx, hx, habsent]
    cases hl : b.links[e.slot]? with
    | none => simp [hl]
    | some l =>
      have hl' : l = none := hlinks l (List.mem_of_getElem? hl)
      simp [hl, hl']
  · rw [if_neg hx]

/-! ### Links -/

/-- What `link` asks for before it connects an exit to a block. -/
structure Connects (c : Cache) (e : Edge) (old : Option UInt32) (dst : UInt32) : Prop where
  source : ∃ b, c.get? e.source = some b ∧ b.links[e.slot]? = some old
  sourceRuns : c.lookup e.source ≠ none
  runs : c.lookup dst ≠ none
  other : old ≠ some dst

theorem Connects.target?_eq {e : Edge} {old : Option UInt32} {dst : UInt32}
    (h : c.Connects e old dst) : c.target? e = old := by
  obtain ⟨b, hb, hl⟩ := h.source
  unfold target?
  rw [hb]
  simp [hl]

/-- A link either changes nothing or connects an exit of a runnable block to a runnable block. -/
theorem link_cases (c : Cache) (source : UInt32) (slot : Nat) (dst : UInt32) :
    c.link source slot dst = c ∨ ∃ old, c.Connects ⟨source, slot⟩ old dst ∧
      c.link source slot dst = c.connect ⟨source, slot⟩ old dst := by
  unfold link
  cases hb : c.get? source with
  | none => exact .inl rfl
  | some b =>
    dsimp only
    by_cases hruns : ((c.lookup dst).isNone || b.isStale) = true
    · rw [if_pos hruns]
      exact .inl rfl
    · rw [if_neg hruns]
      cases hl : b.links[slot]? with
      | none => exact .inl rfl
      | some old =>
        dsimp only
        by_cases hold : old = some dst
        · rw [if_pos hold]
          exact .inl rfl
        · rw [if_neg hold]
          simp only [Bool.or_eq_true, not_or, Option.isNone_iff_eq_none] at hruns
          refine .inr ⟨old, ⟨⟨b, hb, hl⟩, ?_, hruns.1, hold⟩, rfl⟩
          unfold lookup
          rw [hb]
          intro hnone
          exact hruns.2 (by unfold Block.isStale; rw [show b.code = none from hnone]; rfl)

theorem lookup_connect (c : Cache) (e : Edge) (old : Option UInt32) (dst x : UInt32) :
    (c.connect e old dst).lookup x = c.lookup x := by
  unfold connect
  have hset : ∀ x, (c.modify e.source (·.setLink e.slot (some dst))).lookup x = c.lookup x :=
    c.lookup_modify (g := (·.setLink e.slot (some dst))) (fun _ => rfl) (fun _ => rfl) e.source
  cases old with
  | none =>
    rw [lookup_modify, hset] <;> exact fun _ => rfl
  | some old =>
    rw [lookup_modify, lookup_dropIncoming, hset] <;> exact fun _ => rfl

theorem lookup_link (c : Cache) (source : UInt32) (slot : Nat) (dst x : UInt32) :
    (c.link source slot dst).lookup x = c.lookup x := by
  obtain h | ⟨old, -, h⟩ := c.link_cases source slot dst
  · rw [h]
  · rw [h, lookup_connect]

theorem Connects.target?_setLink {e : Edge} {old : Option UInt32} {dst : UInt32}
    (h : c.Connects e old dst) (e' : Edge) :
    (c.modify e.source (·.setLink e.slot (some dst))).target? e' =
      if e' = e then some dst else c.target? e' := by
  obtain ⟨b, hb, hl⟩ := h.source
  have hlt : e.slot < b.links.length := (List.getElem?_eq_some_iff.mp hl).1
  have hget := c.get?_modify (g := (·.setLink e.slot (some dst))) (fun _ => rfl) e.source e'.source
  unfold target?
  rw [hget]
  by_cases hs : e'.source = e.source
  · rw [if_pos hs, hs, hb]
    by_cases hslot : e'.slot = e.slot
    · have he : e' = e := by
        cases e
        cases e'
        cases hs
        cases hslot
        rfl
      simp [he, Block.setLink, hlt]
    · have hne : ¬ e' = e := fun he => hslot (congrArg Edge.slot he)
      simp [hne, Block.setLink, List.getElem?_set_ne (Ne.symm hslot)]
  · have hne : ¬ e' = e := fun he => hs (congrArg Edge.source he)
    rw [if_neg hs, if_neg hne]

theorem Connects.target?_connect {e : Edge} {old : Option UInt32} {dst : UInt32}
    (h : c.Connects e old dst) (e' : Edge) :
    (c.connect e old dst).target? e' = if e' = e then some dst else c.target? e' := by
  rw [← h.target?_setLink]
  unfold connect
  cases old with
  | none =>
    rw [target?_modify] <;> exact fun _ => rfl
  | some old =>
    rw [target?_modify, target?_dropIncoming] <;> exact fun _ => rfl

theorem Connects.incoming_connect {e : Edge} {old : Option UInt32} {dst : UInt32}
    (h : c.Connects e old dst) (x : UInt32) :
    (c.connect e old dst).incoming x =
      (if old = some x then (c.incoming x).filter (· ≠ e) else c.incoming x) ++
        if x = dst then [e] else [] := by
  have hset : ∀ x, (c.modify e.source (·.setLink e.slot (some dst))).incoming x = c.incoming x :=
    c.incoming_modify (g := (·.setLink e.slot (some dst))) (fun _ => rfl) (fun _ => rfl) e.source
  -- The last step appends at a block that exists, so it is not the change of a missing block.
  have hpush : ∀ c' : Cache, c'.lookup dst ≠ none →
      (c'.modify dst fun b => { b with incoming := b.incoming ++ [e] }).incoming x =
        c'.incoming x ++ if x = dst then [e] else [] := by
    intro c' hruns
    unfold incoming
    rw [c'.get?_modify (g := fun b => { b with incoming := b.incoming ++ [e] }) fun _ => rfl]
    by_cases hx : x = dst
    · subst hx
      cases hb : c'.get? x with
      | none =>
        unfold lookup at hruns
        rw [hb] at hruns
        exact absurd rfl hruns
      | some b => simp
    · simp [hx]
  have hruns : (c.modify e.source (·.setLink e.slot (some dst))).lookup dst ≠ none := by
    rw [c.lookup_modify (g := (·.setLink e.slot (some dst))) (fun _ => rfl) fun _ => rfl]
    exact h.runs
  unfold connect
  cases old with
  | none =>
    rw [hpush _ hruns, hset]
    simp
  | some old =>
    rw [hpush _ (by rwa [lookup_dropIncoming]), incoming_dropIncoming, hset]
    simp only [Option.some.injEq, eq_comm]

/-! ### Symmetry -/

/-- Both ends of each edge agree, each is recorded once, and a block that cannot be run has none. -/
structure Symmetric (c : Cache) : Prop where
  target?_iff : ∀ e dst, c.target? e = some dst ↔ e ∈ c.incoming dst
  nodup : ∀ addr, (c.incoming addr).Nodup
  incoming_nil : ∀ addr, c.lookup addr = none → c.incoming addr = []
  target?_none : ∀ e : Edge, c.lookup e.source = none → c.target? e = none

theorem symmetric_empty : Symmetric {} where
  target?_iff e dst := by
    constructor
    · intro h
      cases h
    · intro h
      cases h
  nodup _ := List.nodup_nil
  incoming_nil _ _ := rfl
  target?_none _ _ := rfl

theorem Symmetric.insert {b : Block} {c' : Cache} (h : Symmetric c) (hb : c.insert b = .ok c') :
    Symmetric c' := by
  obtain ⟨⟨-, -, habsent⟩, -⟩ := c.insert_eq_ok_iff.mp hb
  have hold : c.lookup b.addr = none := by
    unfold lookup
    rw [habsent]
    rfl
  have hstale : ∀ x, c'.lookup x = none → c.lookup x = none := by
    intro x hx
    rw [lookup_insert hb] at hx
    by_cases hxb : x = b.addr
    · rw [hxb, hold]
    · rwa [if_neg hxb] at hx
  constructor
  · intro e dst
    rw [target?_insert hb, incoming_insert hb]
    exact h.target?_iff e dst
  · intro addr
    rw [incoming_insert hb]
    exact h.nodup addr
  · intro addr haddr
    rw [incoming_insert hb]
    exact h.incoming_nil addr (hstale addr haddr)
  · intro e he
    rw [target?_insert hb]
    exact h.target?_none e (hstale e.source he)

theorem Symmetric.link (h : Symmetric c) (source : UInt32) (slot : Nat) (dst : UInt32) :
    Symmetric (c.link source slot dst) := by
  obtain hsame | ⟨old, hc, heq⟩ := c.link_cases source slot dst
  · rwa [hsame]
  rw [heq]
  set e : Edge := ⟨source, slot⟩
  have hold : ∀ x, e ∈ c.incoming x ↔ old = some x := by
    intro x
    rw [← h.target?_iff, hc.target?_eq]
  have hmem : ∀ x e', e' ∈ (if old = some x then (c.incoming x).filter (· ≠ e) else c.incoming x) ↔
      e' ∈ c.incoming x ∧ e' ≠ e := by
    intro x e'
    by_cases hx : old = some x
    · simp [hx]
    · have hne : ∀ d, d ∈ c.incoming x → d ≠ e := by
        rintro d hd rfl
        exact hx ((hold x).mp hd)
      rw [if_neg hx]
      exact ⟨fun hd => ⟨hd, hne e' hd⟩, fun hd => hd.1⟩
  constructor
  · intro e' x
    rw [hc.target?_connect, hc.incoming_connect, List.mem_append, hmem, ← h.target?_iff]
    by_cases he : e' = e
    · by_cases hx : x = dst
      · simp [he, hx]
      · simp [he, hx, Ne.symm hx]
    · by_cases hx : x = dst <;> simp [he, hx]
  · intro x
    rw [hc.incoming_connect]
    have hkept : (if old = some x then (c.incoming x).filter (· ≠ e) else c.incoming x).Nodup := by
      split
      · exact (h.nodup x).filter _
      · exact h.nodup x
    by_cases hx : x = dst
    · rw [if_pos hx, List.nodup_append]
      refine ⟨hkept, List.nodup_singleton e, ?_⟩
      intro a ha b hb
      rw [List.mem_singleton.mp hb]
      exact ((hmem x a).mp ha).2
    · rwa [if_neg hx, List.append_nil]
  · intro x hx
    rw [lookup_connect] at hx
    have hne : x ≠ dst := fun e => hc.runs (e ▸ hx)
    rw [hc.incoming_connect, if_neg hne, h.incoming_nil x hx]
    simp
  · intro e' he'
    rw [lookup_connect] at he'
    have hne : e' ≠ e := fun he => hc.sourceRuns (he ▸ he')
    rw [hc.target?_connect, if_neg hne]
    exact h.target?_none e' he'

theorem Symmetric.target?_invalidate (h : Symmetric c) (addr : UInt32) (e : Edge) :
    (c.invalidate addr).1.target? e =
      if e.source = addr ∨ c.target? e = some addr then none else c.target? e := by
  rw [Cache.target?_invalidate]
  by_cases hs : e.source = addr
  · simp [hs]
  · by_cases ht : c.target? e = some addr
    · simp [ht, (h.target?_iff e addr).mp ht]
    · simp [hs, ht]

theorem Symmetric.incoming_invalidate (h : Symmetric c) (addr x : UInt32) :
    (c.invalidate addr).1.incoming x =
      if x = addr then [] else (c.incoming x).filter fun e => e.source ≠ addr := by
  rw [Cache.incoming_invalidate]
  by_cases hx : x = addr
  · rw [if_pos hx, if_pos hx]
  · rw [if_neg hx, if_neg hx]
    apply List.filter_congr
    intro e he
    simp [(h.target?_iff e x).mpr he]

theorem Symmetric.invalidate (h : Symmetric c) (addr : UInt32) :
    Symmetric (c.invalidate addr).1 := by
  constructor
  · intro e x
    rw [h.target?_invalidate, h.incoming_invalidate]
    by_cases hx : x = addr
    · by_cases ht : c.target? e = some addr <;> simp [hx, ht]
    · rw [if_neg hx, List.mem_filter, ← h.target?_iff]
      by_cases hs : e.source = addr
      · simp [hs]
      · by_cases ht : c.target? e = some addr
        · simp [ht, Ne.symm hx]
        · simp [hs, ht]
  · intro x
    rw [h.incoming_invalidate]
    split
    · exact List.nodup_nil
    · exact (h.nodup x).filter _
  · intro x hx
    rw [h.incoming_invalidate]
    by_cases hxa : x = addr
    · rw [if_pos hxa]
    · rw [lookup_invalidate, if_neg hxa] at hx
      rw [if_neg hxa, h.incoming_nil x hx, List.filter_nil]
  · intro e he
    rw [h.target?_invalidate]
    by_cases hs : e.source = addr
    · simp [hs]
    · rw [lookup_invalidate, if_neg hs] at he
      simp [h.target?_none e he]

theorem Symmetric.remove (h : Symmetric c) (addr : UInt32) : Symmetric (c.remove addr).1 := by
  have hcut := h.invalidate addr
  rw [remove_eq]
  have hin : ∀ x, ((c.invalidate addr).1.forget addr).incoming x =
    (c.invalidate addr).1.incoming x := by
    intro x
    rw [incoming_forget, h.incoming_invalidate]
    by_cases hx : x = addr <;> simp [hx]
  have htarget : ∀ e, ((c.invalidate addr).1.forget addr).target? e =
      (c.invalidate addr).1.target? e := by
    intro e
    rw [target?_forget, h.target?_invalidate]
    by_cases hs : e.source = addr <;> simp [hs]
  have hcode : ∀ x, ((c.invalidate addr).1.forget addr).lookup x =
      (c.invalidate addr).1.lookup x := by
    intro x
    rw [lookup_forget, lookup_invalidate]
    by_cases hx : x = addr <;> simp [hx]
  constructor
  · intro e x
    rw [htarget, hin]
    exact hcut.target?_iff e x
  · intro x
    rw [hin]
    exact hcut.nodup x
  · intro x hx
    rw [hin]
    exact hcut.incoming_nil x (by rwa [hcode] at hx)
  · intro e he
    rw [htarget]
    exact hcut.target?_none e (by rwa [hcode] at he)

/-! ### Sequences of operations -/

/-- A request to the cache. -/
inductive Request where
  | insert (b : Block)
  | link (source : UInt32) (slot : Nat) (dst : UInt32)
  | invalidate (addr : UInt32)
  | remove (addr : UInt32)
  | clear
  deriving DecidableEq, Repr

/-- The cache after a request. Only an insertion can fault. -/
def Request.serve (c : Cache) : Request → Except Fault Cache
  | insert b => c.insert b
  | link source slot dst => .ok (c.link source slot dst)
  | invalidate addr => .ok (c.invalidate addr).1
  | remove addr => .ok (c.remove addr).1
  | clear => .ok {}

theorem Symmetric.serve {c' : Cache} (h : Symmetric c) (r : Request) (hr : r.serve c = .ok c') :
    Symmetric c' := by
  cases r with
  | insert b => exact h.insert hr
  | link source slot dst =>
    cases hr
    exact h.link source slot dst
  | invalidate addr =>
    cases hr
    exact h.invalidate addr
  | remove addr =>
    cases hr
    exact h.remove addr
  | clear =>
    cases hr
    exact symmetric_empty

theorem Symmetric.serveAll {c' : Cache} (h : Symmetric c) (rs : List Request)
    (hrs : rs.foldlM Request.serve c = .ok c') : Symmetric c' := by
  induction rs generalizing c with
  | nil =>
    cases hrs
    exact h
  | cons r rs ih =>
    rw [List.foldlM_cons] at hrs
    cases hr : r.serve c with
    | error e =>
      rw [hr] at hrs
      cases hrs
    | ok d =>
      rw [hr] at hrs
      exact ih (h.serve r hr) hrs

/-- After any requests, the link of an exit and the record of the block it leads to go together, no
exit is recorded twice, stale blocks have no edges, and a link that is followed leads to a block
that can be run. -/
theorem links_symmetric (rs : List Request) (hrs : rs.foldlM Request.serve {} = .ok c) :
    (∀ src slot dst, (∃ b, c.get? src = some b ∧ b.links[slot]? = some (some dst)) ↔
      ∃ b, c.get? dst = some b ∧ ⟨src, slot⟩ ∈ b.incoming) ∧
    (∀ addr b, c.get? addr = some b → b.incoming.Nodup) ∧
    (∀ addr b, c.get? addr = some b → b.isStale → (∀ l ∈ b.links, l = none) ∧ b.incoming = []) ∧
    (∀ src slot dst code, c.linked src slot = some (dst, code) →
      ∃ b, c.get? dst = some b ∧ b.isStale = false ∧ b.code = some code) := by
  have h : Symmetric c := symmetric_empty.serveAll rs hrs
  have hin : ∀ {addr b}, c.get? addr = some b → c.incoming addr = b.incoming := by
    intro addr b hb
    unfold incoming
    rw [hb]
    rfl
  refine ⟨?_, ?_, ?_, ?_⟩
  · intro src slot dst
    exact (c.target?_eq_some_iff (e := ⟨src, slot⟩)).symm.trans
      ((h.target?_iff ⟨src, slot⟩ dst).trans c.mem_incoming_iff)
  · intro addr b hb
    rw [← hin hb]
    exact h.nodup addr
  · intro addr b hb hstale
    have hnone : c.lookup addr = none := by
      unfold lookup
      rw [hb]
      exact Option.isNone_iff_eq_none.mp hstale
    refine ⟨?_, ?_⟩
    · intro l hl
      obtain ⟨slot, hslot⟩ := List.getElem?_of_mem hl
      cases l with
      | none => rfl
      | some dst =>
        have ht := h.target?_none ⟨addr, slot⟩ hnone
        rw [c.target?_eq_some_iff.mpr ⟨b, hb, hslot⟩] at ht
        cases ht
    · rw [← hin hb]
      exact h.incoming_nil addr hnone
  · intro src slot dst code hlinked
    unfold linked at hlinked
    simp only [Option.bind_eq_bind, Option.bind_eq_some_iff, Option.pure_def, Option.some.injEq,
      Prod.mk.injEq] at hlinked
    obtain ⟨_, _, _, _, _, _, d, hd, rfl, rfl⟩ := hlinked
    obtain ⟨b, hb, hcode⟩ := c.lookup_eq_some_iff.mp hd
    refine ⟨b, hb, ?_, hcode⟩
    unfold Block.isStale
    rw [hcode]
    rfl

/-- A loop at `0x10` that first left to `0x20`, and a block at `0x20` that is stale. -/
def retargeted : List Request :=
  [.insert (.fresh 0x10 8 3 0x1000 64 [0x20, 0x10] false),
    .insert (.fresh 0x20 4 5 0x2000 64 [0x10] false),
   .link 0x10 0 0x20, .link 0x10 1 0x10, .link 0x20 0 0x10, .link 0x10 0 0x10, .link 0x10 9 0x20,
   .invalidate 0x20, .link 0x10 0 0x20]

theorem links_symmetric_retargeted :
    ∃ c, retargeted.foldlM Request.serve {} = .ok c ∧ c.linked 0x10 0 = some (0x10, 3) ∧
      (∃ b, c.get? 0x10 = some b ∧ ⟨0x10, 0⟩ ∈ b.incoming) ∧
      (∃ b, c.get? 0x20 = some b ∧ b.isStale ∧ b.incoming = []) := by
  have hrun : retargeted.foldlM Request.serve {} =
      .ok { blocks := [{ addr := 0x10, size := 8, code := some 3, hostAddr := 0x1000, hostSize := 64
                         exits := [0x20, 0x10], links := [some 0x10, some 0x10]
                         incoming := [⟨0x10, 1⟩, ⟨0x10, 0⟩], fast := false },
                       { addr := 0x20, size := 4, code := none, hostAddr := 0x2000, hostSize := 64
                         exits := [0x10], links := [none], incoming := [], fast := false }]
            hosts := [(0x1000, 0x10)] } := by rfl
  obtain ⟨hboth, -, hstale, -⟩ := links_symmetric retargeted hrun
  refine ⟨_, hrun, rfl, ?_, ?_⟩
  · exact (hboth 0x10 0 0x10).mp ⟨_, rfl, rfl⟩
  · exact ⟨_, rfl, rfl, (hstale 0x20 _ rfl rfl).2⟩

end Recompiler.Jit.Cache
