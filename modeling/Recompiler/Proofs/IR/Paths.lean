import Recompiler.Proofs.IR.Meaning
import Recompiler.Proofs.IR.WellFormed

/-!
Paths through the blocks of a fragment, and what lies on all of them. An instruction precedes
another one if it stands in front of it in the same block, or is passed on every path to the block;
this is an order if all blocks can be reached.
-/
namespace Recompiler.Meaning

open IR

/-- Control may come to the point along the instructions `seen`, the last one first. Conditions are
not looked at: a conditional branch may be taken or not. -/
inductive Path (f : Fragment) : List InstrId → Point → Prop
  | start : Path f [] ⟨[], f.order⟩
  | enter {seen : List InstrId} {b : BlockId} {blocks : List BlockId}
      (h : Path f seen ⟨[], b :: blocks⟩) : Path f seen ⟨f.blockInstrs b, blocks⟩
  | pass {seen code : List InstrId} {i : InstrId} {blocks : List BlockId}
      (h : Path f seen ⟨i :: code, blocks⟩) (hop : (f.instr i).op ≠ .branch) :
      Path f (i :: seen) ⟨code, blocks⟩
  | jump {seen code : List InstrId} {i : InstrId} {blocks : List BlockId} {v : ValueId}
      {b : BlockId} (h : Path f seen ⟨i :: code, blocks⟩)
      (htarget : Exit.target? (f.instr i) = some v)
      (hv : (f.value v).origin = .constant (.blk b)) : Path f (i :: seen) (startOf f b)

/-- Every path to the point passes `i`. -/
def Dominates (f : Fragment) (i : InstrId) (p : Point) : Prop := ∀ seen, Path f seen p → i ∈ seen

/-- Whenever control comes to `i`, it has passed `j`: earlier in the block, or on the way to it. -/
def Precedes (f : Fragment) (j i : InstrId) : Prop :=
  ∀ b ∈ f.order, ∀ l₁ l₂, f.blockInstrs b = l₁ ++ i :: l₂ →
    j ∈ l₁ ∨ (j ∉ f.blockInstrs b ∧ Dominates f j (startOf f b))

/-- All blocks can be reached, and arguments are constants or results that are defined first: on
every path to the block, or earlier in it. -/
structure Ordered (f : Fragment) : Prop where
  reachable : ∀ b ∈ f.order, ∃ seen, Path f seen (startOf f b)
  defined : ∀ b ∈ f.order, ∀ l₁ i l₂, f.blockInstrs b = l₁ ++ i :: l₂ → ∀ n v,
    (f.instr i).arg n = some v → f.isConstant v = false →
      ∃ j, (f.instr j).result = some v ∧ (j ∈ f.blockInstrs b → j ∈ l₁) ∧
        ∀ seen, Path f seen (startOf f b) → j ∈ l₁ ∨ j ∈ seen

variable {f : Fragment} {seen code : List InstrId} {i j k : InstrId} {b : BlockId}
  {blocks : List BlockId} {p : Point}

/-! ### Points -/

theorem startOf_eq (h : f.order.Nodup) {done : List BlockId} (e : f.order = done ++ b :: blocks) :
    startOf f b = ⟨f.blockInstrs b, blocks⟩ := by
  have hb : ∀ a ∈ done, (decide (a ≠ b)) = true := by
    intro a ha
    rw [e, List.nodup_append] at h
    exact decide_eq_true (h.2.2 a ha b (by simp))
  rw [startOf, e, List.dropWhile_append_of_pos hb, List.dropWhile_cons_of_neg (by simp)]
  rfl

/-- In a single block, arguments are constants or results of earlier instructions. -/
theorem ordered_of_single (horder : f.order = [b])
    (hdefined : ∀ l₁ i l₂, f.blockInstrs b = l₁ ++ i :: l₂ → ∀ n, ∀ v ∈ (f.instr i).arg n,
      f.isConstant v = false → ∃ j ∈ l₁, (f.instr j).result = some v) : Ordered f where
  reachable c hc := by
    rw [horder] at hc
    obtain rfl := List.mem_singleton.mp hc
    have hstart : startOf f c = ⟨f.blockInstrs c, []⟩ :=
      startOf_eq (by simp [horder]) (horder.trans (List.nil_append _).symm)
    exact ⟨[], hstart ▸ Path.enter (horder ▸ Path.start)⟩
  defined c hc l₁ i l₂ e n v hv hconst := by
    rw [horder] at hc
    obtain rfl := List.mem_singleton.mp hc
    obtain ⟨j, hj, hres⟩ := hdefined l₁ i l₂ e n v hv hconst
    exact ⟨j, hres, fun _ => hj, fun _ _ => .inl hj⟩

/-- A point on a path lies in a block, behind a part of it that the path has passed. -/
theorem Path.located (hf : WellFormed f) (h : Path f seen p) :
    p = ⟨[], f.order⟩ ∨ ∃ b ∈ f.order, ∃ l₁ seen₀, Path f seen₀ (startOf f b) ∧
      seen = l₁.reverse ++ seen₀ ∧ f.blockInstrs b = l₁ ++ p.code ∧
      p.blocks = (startOf f b).blocks := by
  induction h with
  | start => exact .inl rfl
  | @enter seen b blocks h ih =>
    obtain ⟨done, hdone⟩ : ∃ done, f.order = done ++ b :: blocks := by
      rcases ih with e | ⟨a, -, l₁, seen₀, -, -, -, e⟩
      · exact ⟨[], (congrArg Point.blocks e).symm⟩
      · have hsuffix : (b :: blocks) <:+ f.order := by
          change b :: blocks = _ at e
          rw [e]
          exact (List.tail_suffix _).trans (List.dropWhile_suffix _)
        obtain ⟨done, hd⟩ := hsuffix
        exact ⟨done, hd.symm⟩
    have hstart := startOf_eq hf.order_nodup hdone
    refine .inr ⟨b, by rw [hdone]; simp, [], seen, ?_, rfl, rfl, ?_⟩
    · rw [hstart]
      exact h.enter
    · rw [hstart]
  | @pass seen code i blocks h hop ih =>
    rcases ih with e | ⟨b, hb, l₁, seen₀, hp, rfl, hcode, hblocks⟩
    · cases e
    · exact .inr ⟨b, hb, l₁ ++ [i], seen₀, hp, by simp, by simp [hcode], hblocks⟩
  | @jump seen code i blocks v b h htarget hv _ =>
    exact .inr ⟨b, hf.target v b hv, [], i :: seen, h.jump htarget hv, rfl, rfl, rfl⟩

theorem Path.blocks_subset (hf : WellFormed f) (h : Path f seen p) : p.blocks ⊆ f.order := by
  rcases h.located hf with rfl | ⟨b, -, -, -, -, -, -, e⟩
  · exact List.Subset.refl _
  · rw [e]
    exact ((List.tail_suffix _).trans (List.dropWhile_suffix _)).subset

/-- In front of an instruction, the block and what of it was passed are determined. -/
theorem Path.located_cons (hf : WellFormed f) (h : Path f seen ⟨i :: code, blocks⟩) :
    ∃ b ∈ f.order, ∃ l₁ seen₀, Path f seen₀ (startOf f b) ∧ seen = l₁.reverse ++ seen₀ ∧
      f.blockInstrs b = l₁ ++ i :: code ∧ blocks = (startOf f b).blocks := by
  rcases h.located hf with e | h
  · cases e
  · exact h

theorem block_unique (hf : WellFormed f) {a : BlockId} (ha : a ∈ f.order) (hb : b ∈ f.order)
    (hi : i ∈ f.blockInstrs a) (hi' : i ∈ f.blockInstrs b) : a = b :=
  ((hf.chain a ha).block_eq i hi).symm.trans ((hf.chain b hb).block_eq i hi')

theorem nodup_allInstrs (hf : WellFormed f) : f.allInstrs.Nodup := by
  refine List.nodup_flatMap.mpr ⟨fun b hb => (hf.chain b hb).nodup, ?_⟩
  refine hf.order_nodup.imp_of_mem fun {a b} ha hb hab => ?_
  exact List.disjoint_left.mpr fun i hi hi' => hab (block_unique hf ha hb hi hi')

theorem split_unique {α : Type} {l l₁ l₂ l₃ l₄ : List α} {a : α} (h : l.Nodup)
    (e : l = l₁ ++ a :: l₂) (e' : l = l₃ ++ a :: l₄) : l₁ = l₃ ∧ l₂ = l₄ := by
  rw [e, List.perm_middle.nodup_iff, List.nodup_cons, List.mem_append, not_or] at h
  obtain ⟨h₁, -, h₂⟩ := (List.append_cons_inj_of_notMem h.1.1 h.1.2).mp (e.symm.trans e')
  exact ⟨h₁, h₂⟩

/-- An instruction is in front of one point only. -/
theorem Path.unique (hf : WellFormed f) {seen' code' : List InstrId} {blocks' : List BlockId}
    (h : Path f seen ⟨i :: code, blocks⟩) (h' : Path f seen' ⟨i :: code', blocks'⟩) :
    (⟨i :: code, blocks⟩ : Point) = ⟨i :: code', blocks'⟩ := by
  obtain ⟨b, hb, l₁, seen₀, -, -, hcode, hblocks⟩ := h.located_cons hf
  obtain ⟨b', hb', l₁', seen₀', -, -, hcode', hblocks'⟩ := h'.located_cons hf
  have hi : i ∈ f.blockInstrs b := by simp [hcode]
  have hi' : i ∈ f.blockInstrs b' := by simp [hcode']
  obtain rfl : b = b' := block_unique hf hb hb' hi hi'
  obtain ⟨-, rfl⟩ := split_unique (hf.chain b hb).nodup hcode hcode'
  rw [hblocks, hblocks']

/-- What a path has passed, it came to on the way. -/
theorem Path.before (h : Path f seen p) (hj : j ∈ seen) :
    ∃ seen₁ seen₂ code blocks, seen = seen₂ ++ j :: seen₁ ∧ Path f seen₁ ⟨j :: code, blocks⟩ := by
  induction h with
  | start => cases hj
  | enter h ih => exact ih hj
  | @pass seen code i blocks h hop ih =>
    rcases List.mem_cons.mp hj with rfl | hj
    · exact ⟨seen, [], code, blocks, rfl, h⟩
    · obtain ⟨seen₁, seen₂, code', blocks', rfl, hp⟩ := ih hj
      exact ⟨seen₁, i :: seen₂, code', blocks', rfl, hp⟩
  | @jump seen code i blocks v b h htarget hv ih =>
    rcases List.mem_cons.mp hj with rfl | hj
    · exact ⟨seen, [], code, blocks, rfl, h⟩
    · obtain ⟨seen₁, seen₂, code', blocks', rfl, hp⟩ := ih hj
      exact ⟨seen₁, i :: seen₂, code', blocks', rfl, hp⟩

theorem Path.mem_allInstrs (hf : WellFormed f) (h : Path f seen p) (hj : j ∈ seen) :
    j ∈ f.allInstrs := by
  obtain ⟨seen₁, -, code, blocks, -, hp⟩ := h.before hj
  obtain ⟨b, hb, l₁, -, -, -, hcode, -⟩ := hp.located_cons hf
  exact WellFormed.mem_allInstrs hb (by simp [hcode])

/-! ### Precedence -/

theorem Precedes.mem (hf : WellFormed f) (h : Precedes f j i)
    (hp : Path f seen ⟨i :: code, blocks⟩) : j ∈ seen := by
  obtain ⟨b, hb, l₁, seen₀, hstart, rfl, hcode, -⟩ := hp.located_cons hf
  rcases h b hb l₁ code hcode with hj | ⟨-, hj⟩
  · simp [hj]
  · simp [hj seen₀ hstart]

theorem Precedes.dominates (hf : WellFormed f) (h : Precedes f j i) (code : List InstrId)
    (blocks : List BlockId) : Dominates f j ⟨i :: code, blocks⟩ :=
  fun _ hp => h.mem hf hp

theorem Precedes.ne (hf : WellFormed f) (h : Precedes f j i) (hi : i ∈ f.allInstrs) : j ≠ i := by
  rintro rfl
  obtain ⟨b, hb, hm⟩ := List.mem_flatMap.mp hi
  obtain ⟨l₁, l₂, e⟩ := List.append_of_mem hm
  rcases h b hb l₁ l₂ e with hj | ⟨hj, -⟩
  · have hnodup := (hf.chain b hb).nodup
    rw [e, List.perm_middle.nodup_iff, List.nodup_cons] at hnodup
    exact hnodup.1 (by simp [hj])
  · exact hj hm

/-- What comes behind `i` does not lie on all paths to `i`: the shortest one does without. -/
theorem Precedes.not_dominates (hf : WellFormed f) (h : Precedes f i k)
    (hp : Path f seen ⟨i :: code, blocks⟩) : ¬Dominates f k ⟨i :: code, blocks⟩ := by
  intro hk
  induction hn : seen.length using Nat.strongRecOn generalizing seen with
  | ind n ih =>
    obtain ⟨seen₁, seen₂, code₁, blocks₁, rfl, hp₁⟩ := hp.before (hk seen hp)
    obtain ⟨seen₃, seen₄, code₃, blocks₃, rfl, hp₃⟩ := hp₁.before (h.mem hf hp₁)
    rw [hp₃.unique hf hp] at hp₃
    exact ih seen₃.length (by simp at hn; omega) hp₃ rfl

theorem Precedes.trans (hf : WellFormed f) (ho : Ordered f) (hjk : Precedes f j k)
    (hki : Precedes f k i) : Precedes f j i := by
  intro b hb l₁ l₂ e
  rcases hki b hb l₁ l₂ e with hk | ⟨hk, hdom⟩
  · -- `k` stands in the same block, in front of `i`
    obtain ⟨l₃, l₄, rfl⟩ := List.append_of_mem hk
    rcases hjk b hb l₃ (l₄ ++ i :: l₂) (by simp [e]) with hj | hj
    · exact .inl (by simp [hj])
    · exact .inr hj
  · -- every path to the block passes `k`, and `j` before it
    have hdomj : ∀ seen, Path f seen (startOf f b) → ∃ seen₁, seen₁.length < seen.length ∧
        (∃ code blocks, Path f seen₁ ⟨j :: code, blocks⟩) ∧ j ∈ seen := by
      intro seen hp
      obtain ⟨seen₁, seen₂, code₁, blocks₁, rfl, hp₁⟩ := hp.before (hdom seen hp)
      have hj := hjk.mem hf hp₁
      obtain ⟨seen₃, seen₄, code₃, blocks₃, rfl, hp₃⟩ := hp₁.before hj
      exact ⟨seen₃, by simp; omega, ⟨code₃, blocks₃, hp₃⟩, by simp⟩
    refine .inr ⟨fun hj => ?_, fun seen hp => ?_⟩
    · -- a shortest path to the block would have a shorter one in it
      obtain ⟨seen, hp⟩ := ho.reachable b hb
      induction hn : seen.length using Nat.strongRecOn generalizing seen with
      | ind n ih =>
        obtain ⟨seen₁, hlt, ⟨code₁, blocks₁, hp₁⟩, -⟩ := hdomj seen hp
        obtain ⟨a, ha, l₃, seen₃, hp₃, rfl, hcode, -⟩ := hp₁.located_cons hf
        obtain rfl : a = b := block_unique hf ha hb (by simp [hcode]) hj
        exact ih seen₃.length (by simp at hlt; omega) seen₃ hp₃ rfl
    · obtain ⟨-, -, -, hj⟩ := hdomj seen hp
      exact hj

/-- Arguments that are not constant are results of preceding instructions. -/
theorem Ordered.precedes (ho : Ordered f) (hf : WellFormed f) (hi : i ∈ f.allInstrs) {n : Slot}
    {v : ValueId} (hv : (f.instr i).arg n = some v) (hc : f.isConstant v = false) :
    ∃ j ∈ f.allInstrs, (f.instr j).result = some v ∧ Precedes f j i := by
  obtain ⟨b, hb, hm⟩ := List.mem_flatMap.mp hi
  obtain ⟨l₁, l₂, e⟩ := List.append_of_mem hm
  obtain ⟨j, hres, hsame, hpath⟩ := ho.defined b hb l₁ i l₂ e n v hv hc
  obtain ⟨seen, hp⟩ := ho.reachable b hb
  have hj : j ∈ f.allInstrs := by
    rcases hpath seen hp with hj | hj
    · exact WellFormed.mem_allInstrs hb (by simp [e, hj])
    · exact hp.mem_allInstrs hf hj
  refine ⟨j, hj, hres, fun a ha l₃ l₄ e' => ?_⟩
  obtain rfl : a = b := block_unique hf ha hb (i := i) (by simp [e']) hm
  obtain ⟨rfl, -⟩ := split_unique (hf.chain a ha).nodup e e'
  by_cases hj : j ∈ f.blockInstrs a
  · exact .inl (hsame hj)
  · refine .inr ⟨hj, fun seen hp => ?_⟩
    rcases hpath seen hp with hl | hs
    · exact absurd (by simp [e, hl]) hj
    · exact hs

end Recompiler.Meaning
