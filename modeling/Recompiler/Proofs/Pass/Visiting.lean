import Mathlib.Data.List.Nodup
import Mathlib.Data.List.Perm.Subperm
import Mathlib.Logic.Relation
import Recompiler.Pass.BlockTree
import Recompiler.Proofs.IR.Serving

/-!
The walk over the blocks of a fragment. It ends for every set of edges, cyclic ones included: a
block goes on the stack when it is seen first, so it goes there once. What the walk lists is a
forest in pre-order, and the first tree holds whatever the first block reaches.
-/
namespace Recompiler.Pass.BlockTree

open IR Relation

variable {f : Fragment} {seen seen' l : List BlockId} {roots roots' stack vs vs' : List Visit}
  {b c d : BlockId} {v w : Visit}

/-- The order names every block once, and edges lead to blocks. -/
structure Graph (f : Fragment) : Prop where
  order_perm : f.order.Perm ((List.range f.blocks.size).map BlockId.mk)
  edges : ∀ b ∈ f.order, ∀ c ∈ (f.block b).edges, c ∈ f.order

theorem Graph.order_nodup (h : Graph f) : f.order.Nodup :=
  h.order_perm.nodup_iff.mpr (List.nodup_range.map fun _ _ e => congrArg BlockId.index e)

theorem Graph.length_order (h : Graph f) : f.order.length = f.blocks.size := by
  simpa using h.order_perm.length_eq

def blocks (vs : List Visit) : List BlockId := vs.map Visit.block

@[simp] theorem blocks_nil : blocks [] = [] := rfl
@[simp] theorem blocks_cons : blocks (v :: vs) = v.block :: blocks vs := rfl
@[simp] theorem blocks_append : blocks (vs ++ vs') = blocks vs ++ blocks vs' := List.map_append
@[simp] theorem blocks_entries (b : BlockId) (l : List BlockId) :
  blocks (l.map (⟨·, some b⟩)) = l := by
  simp [blocks, Function.comp_def]

theorem block_mem_blocks (h : v ∈ vs) : v.block ∈ blocks vs := List.mem_map_of_mem h

/-! ### Successors that are not seen yet -/

/-- The members `new` of `l` are claimed, which makes `seen'` of `seen`. -/
structure Claims (seen l new seen' : List BlockId) : Prop where
  perm : seen'.Perm (new ++ seen)
  sublist : new.Sublist l
  nodup : seen.Nodup → seen'.Nodup
  mem : ∀ c ∈ l, c ∈ seen'

theorem Claims.subset {new : List BlockId} (h : Claims seen l new seen') : seen ⊆ seen' :=
  fun _ hc => h.perm.mem_iff.mpr (List.mem_append_right _ hc)

theorem claims_unseen (seen l : List BlockId) :
    Claims seen l (unseen seen l).1 (unseen seen l).2 := by
  induction l generalizing seen with
  | nil => exact ⟨.refl _, .refl _, id, fun c hc => absurd hc List.not_mem_nil⟩
  | cons b l ih =>
    rw [unseen]
    split
    · next hb =>
      have h := ih seen
      refine ⟨h.perm, h.sublist.cons b, h.nodup, List.forall_mem_cons.mpr ⟨?_, h.mem⟩⟩
      exact h.subset (List.contains_iff_mem.mp hb)
    · next hb =>
      have h := ih (b :: seen)
      refine ⟨h.perm.trans List.perm_middle, h.sublist.cons_cons b, fun hseen => h.nodup ?_,
        List.forall_mem_cons.mpr ⟨h.subset List.mem_cons_self, h.mem⟩⟩
      exact List.nodup_cons.mpr ⟨fun hmem => hb (List.contains_iff_mem.mpr hmem), hseen⟩

theorem claims_of_eq {new : List BlockId} (h : unseen seen l = (new, seen')) :
    Claims seen l new seen' := by
  have hclaims := claims_unseen seen l
  rwa [h] at hclaims

/-! ### The walk without a step limit -/

/-- A walk from a stack until nothing is left on it: what it visits, and the blocks then seen. -/
inductive Grows (f : Fragment) : List BlockId → List Visit → List Visit → List BlockId → Prop
  | done (seen : List BlockId) : Grows f seen [] [] seen
  | visit {seen new seen₁ seen' : List BlockId} {stack vs : List Visit} (v : Visit)
      (claims : unseen seen (f.block v.block).edges = (new, seen₁))
      (rest : Grows f seen₁ (new.map (⟨·, some v.block⟩) ++ stack) vs seen') :
      Grows f seen (v :: stack) (v :: vs) seen'

/-- Walks from those of the listed blocks that are not seen when their turn comes. -/
inductive Walks (f : Fragment) : List BlockId → List BlockId → List Visit → Prop
  | done (seen : List BlockId) : Walks f seen [] []
  | skip {seen l : List BlockId} {vs : List Visit} {b : BlockId} (old : b ∈ seen)
      (rest : Walks f seen l vs) : Walks f seen (b :: l) vs
  | root {seen seen' l : List BlockId} {vs vs' : List Visit} {b : BlockId} (fresh : b ∉ seen)
      (tree : Grows f (b :: seen) [⟨b, none⟩] vs seen') (rest : Walks f seen' l vs') :
      Walks f seen (b :: l) (vs ++ vs')

/-- Blocks are seen once, and those on the stack are blocks of the fragment. -/
structure Sound (f : Fragment) (seen : List BlockId) (stack : List Visit) : Prop where
  nodup : seen.Nodup
  seen_subset : seen ⊆ f.order
  stack_subset : blocks stack ⊆ f.order

theorem Sound.length_le (h : Sound f seen stack) : seen.length ≤ f.order.length :=
  (List.subperm_of_subset h.nodup h.seen_subset).length_le

theorem Sound.claims {new seen₁ : List BlockId} (h : Sound f seen (v :: stack)) (hf : Graph f)
    (hclaims : Claims seen (f.block v.block).edges new seen₁) :
    Sound f seen₁ (new.map (⟨·, some v.block⟩) ++ stack) := by
  obtain ⟨hv, hstack⟩ := List.cons_subset.mp h.stack_subset
  have hnew : new ⊆ f.order := fun c hc => hf.edges _ hv c (hclaims.sublist.subset hc)
  constructor
  · exact hclaims.nodup h.nodup
  · exact fun c hc => (List.mem_append.mp (hclaims.perm.mem_iff.mp hc)).elim
      (fun hc => hnew hc) fun hc => h.seen_subset hc
  · rw [blocks_append, blocks_entries]
    exact List.append_subset.mpr ⟨hnew, hstack⟩

/-- Every visit takes a block off the stack, and every block seen on the way goes on it. So what is
on the stack or not seen yet gets less with every visit. -/
theorem grows_grow (hf : Graph f) (fuel : Nat) (h : Sound f seen stack)
    (hfuel : stack.length + f.order.length ≤ fuel + seen.length) :
    Grows f seen stack (grow f fuel seen stack).1 (grow f fuel seen stack).2 := by
  induction fuel generalizing seen stack with
  | zero =>
    have hle := h.length_le
    obtain rfl := List.length_eq_zero_iff.mp (by omega : stack.length = 0)
    exact .done seen
  | succ fuel ih =>
    cases stack with
    | nil => exact .done seen
    | cons v stack =>
      have hclaims := claims_unseen seen (f.block v.block).edges
      have hlength := hclaims.perm.length_eq
      rw [List.length_append] at hlength
      refine .visit v rfl (ih (h.claims hf hclaims) ?_)
      simp only [List.length_cons, List.length_append, List.length_map] at hfuel ⊢
      omega

/-! ### What a walk sees -/

namespace Grows

theorem subset (h : Grows f seen stack vs seen') : seen ⊆ seen' := by
  induction h with
  | done => exact fun _ hc => hc
  | visit v hclaims _ ih => exact List.Subset.trans (claims_of_eq hclaims).subset ih

/-- What is seen on the way is visited. -/
theorem perm (h : Grows f seen stack vs seen') :
    (blocks vs ++ seen).Perm (blocks stack ++ seen') := by
  induction h with
  | done => exact .refl _
  | @visit seen new seen₁ seen' stack vs v hclaims _ ih =>
    rw [blocks_append, blocks_entries, List.append_assoc] at ih
    have hmove : (new ++ (blocks vs ++ seen)).Perm (blocks vs ++ seen₁) :=
      (List.perm_append_comm_assoc _ _ _).trans ((claims_of_eq hclaims).perm.symm.append_left _)
    exact .cons v.block ((List.perm_append_left_iff new).mp (hmove.trans ih))

theorem edges_mem (h : Grows f seen stack vs seen') :
    ∀ w ∈ vs, ∀ c ∈ (f.block w.block).edges, c ∈ seen' := by
  induction h with
  | done => exact fun w hw => absurd hw List.not_mem_nil
  | visit v hclaims hrest ih =>
    exact List.forall_mem_cons.mpr
      ⟨fun c hc => hrest.subset ((claims_of_eq hclaims).mem c hc), ih⟩

theorem sound (h : Grows f seen stack vs seen') (hf : Graph f) (hsound : Sound f seen stack) :
    Sound f seen' [] := by
  induction h with
  | done => exact hsound
  | visit v hclaims _ ih => exact ih (hsound.claims hf (claims_of_eq hclaims))

/-- A walk from one new block sees what it visits. -/
theorem perm_root (h : Grows f (b :: seen) [⟨b, none⟩] vs seen') :
    seen'.Perm (blocks vs ++ seen) := by
  have hperm : (b :: (blocks vs ++ seen)).Perm (b :: seen') := List.perm_middle.symm.trans h.perm
  exact hperm.cons_inv.symm

end Grows

theorem Sound.root (h : Sound f seen []) (hb : b ∈ f.order) (hfresh : b ∉ seen) :
    Sound f (b :: seen) [⟨b, none⟩] where
  nodup := List.nodup_cons.mpr ⟨hfresh, h.nodup⟩
  seen_subset := List.cons_subset.mpr ⟨hb, h.seen_subset⟩
  stack_subset := List.cons_subset.mpr ⟨hb, List.nil_subset _⟩

theorem walks_trees (hf : Graph f) (h : Sound f seen []) (hl : l ⊆ f.order) :
    Walks f seen l (trees f seen l) := by
  induction l generalizing seen with
  | nil => exact .done seen
  | cons b l ih =>
    obtain ⟨hb, hl⟩ := List.cons_subset.mp hl
    rw [trees]
    split
    · next hold => exact .skip (List.contains_iff_mem.mp hold) (ih h hl)
    · next hfresh =>
      have hfresh : b ∉ seen := fun hmem => hfresh (List.contains_iff_mem.mpr hmem)
      have hroot := h.root hb hfresh
      have hgrows := grows_grow hf f.blocks.size hroot (by simp [hf.length_order]; omega)
      exact .root hfresh hgrows (ih (hgrows.sound hf hroot) hl)

/-- The walks see each block once, and every listed block is seen. -/
theorem Walks.covers (h : Walks f seen l vs) (hf : Graph f) (hsound : Sound f seen [])
    (hl : l ⊆ f.order) :
    (blocks vs ++ seen).Nodup ∧ blocks vs ++ seen ⊆ f.order ∧ l ⊆ blocks vs ++ seen := by
  induction h with
  | done => exact ⟨hsound.nodup, hsound.seen_subset, List.nil_subset _⟩
  | skip hold _ ih =>
    obtain ⟨hnodup, hsubset, hmem⟩ := ih hsound (List.cons_subset.mp hl).2
    exact ⟨hnodup, hsubset, List.cons_subset.mpr ⟨List.mem_append_right _ hold, hmem⟩⟩
  | @root seen seen' l vs vs' b hfresh hgrows _ ih =>
    obtain ⟨hb, hl⟩ := List.cons_subset.mp hl
    have hsound' := hgrows.sound hf (hsound.root hb hfresh)
    have hperm : (blocks vs' ++ seen').Perm (blocks (vs ++ vs') ++ seen) := by
      rw [blocks_append, List.append_assoc]
      refine (hgrows.perm_root.append_left _).trans ?_
      exact List.perm_append_comm_assoc _ _ _
    obtain ⟨hnodup, hsubset, hmem⟩ := ih hsound' hl
    refine ⟨hperm.nodup_iff.mp hnodup, List.Subset.trans hperm.symm.subset hsubset,
      List.cons_subset.mpr ⟨hperm.subset ?_, List.Subset.trans hmem hperm.subset⟩⟩
    exact List.mem_append_right _ (hgrows.subset List.mem_cons_self)

/-! ### Forests in pre-order -/

/-- The block `c` is entered from `b`. -/
def Child (vs : List Visit) (b c : BlockId) : Prop := ⟨c, some b⟩ ∈ vs

theorem child_le (h : vs ⊆ vs') : Child vs ≤ Child vs' := fun _ _ hchild => h hchild

theorem Child.mem (h : Child vs b c) : c ∈ blocks vs := List.mem_map_of_mem h

/-- Trees with these roots, one after another: the visit of a root, then the trees of its children,
which its edges lead to. -/
inductive Forest (f : Fragment) : List Visit → List Visit → Prop
  | nil : Forest f [] []
  | node {roots below after : List Visit} (v : Visit) {new : List BlockId}
      (edges : new.Sublist (f.block v.block).edges)
      (children : Forest f (new.map (⟨·, some v.block⟩)) below) (rest : Forest f roots after) :
      Forest f (v :: roots) (v :: (below ++ after))

namespace Forest

theorem append (h : Forest f roots vs) (h' : Forest f roots' vs') :
    Forest f (roots ++ roots') (vs ++ vs') := by
  induction h with
  | nil => exact h'
  | node v hedges hchildren _ _ ih =>
    rw [List.cons_append, List.cons_append, List.append_assoc]
    exact .node v hedges hchildren ih

theorem split (h : Forest f (roots ++ roots') vs) :
    ∃ ws ws', vs = ws ++ ws' ∧ Forest f roots ws ∧ Forest f roots' ws' := by
  induction roots generalizing vs with
  | nil => exact ⟨[], vs, rfl, .nil, h⟩
  | cons v roots ih =>
    cases h with
    | @node _ below after _ _ hedges hchildren hrest =>
      obtain ⟨ws, ws', rfl, hws, hws'⟩ := ih hrest
      exact ⟨v :: (below ++ ws), ws', by simp, .node v hedges hchildren hws, hws'⟩

theorem roots_subset (h : Forest f roots vs) : roots ⊆ vs := by
  induction h with
  | nil => exact List.nil_subset _
  | node v _ _ _ _ ih =>
    exact List.cons_subset.mpr ⟨List.mem_cons_self,
      fun _ hr => List.mem_cons_of_mem v (List.mem_append_right _ (ih hr))⟩

/-- What is no root is entered from a listed block along an edge. -/
theorem parent (h : Forest f roots vs) : ∀ w ∈ vs, w ∈ roots ∨
    ∃ p ∈ blocks vs, w.parent = some p ∧ w.block ∈ (f.block p).edges := by
  induction h with
  | nil => exact fun w hw => absurd hw List.not_mem_nil
  | @node roots below after v new hedges _ _ ihchildren ihrest =>
    intro w hw
    obtain rfl | hw := List.mem_cons.mp hw
    · exact .inl List.mem_cons_self
    obtain hw | hw := List.mem_append.mp hw
    · obtain hroot | ⟨p, hp, hparent⟩ := ihchildren w hw
      · obtain ⟨c, hc, rfl⟩ := List.mem_map.mp hroot
        exact .inr ⟨v.block, by simp, rfl, hedges.subset hc⟩
      · exact .inr ⟨p, by simp [hp], hparent⟩
    · obtain hroot | ⟨p, hp, hparent⟩ := ihrest w hw
      · exact .inl (List.mem_cons_of_mem v hroot)
      · exact .inr ⟨p, by simp [hp], hparent⟩

theorem child_cases (h : Forest f roots vs) (hbc : Child vs b c) :
    (∃ r ∈ roots, r.parent = some b) ∨ b ∈ blocks vs := by
  obtain hroot | ⟨p, hp, hparent, -⟩ := h.parent _ hbc
  · exact .inl ⟨_, hroot, rfl⟩
  · cases hparent
    exact .inr hp

/-- Every listed block is reached from a root. -/
theorem reached (h : Forest f roots vs) :
    ∀ d ∈ blocks vs, ∃ r ∈ roots, ReflTransGen (Child vs) r.block d := by
  induction h with
  | nil => exact fun d hd => absurd hd List.not_mem_nil
  | @node roots below after v new _ hchildren _ ihchildren ihrest =>
    have hbelow : below ⊆ v :: (below ++ after) := by simp
    have hafter : after ⊆ v :: (below ++ after) := by simp
    intro d hd
    rw [blocks_cons, blocks_append, List.mem_cons, List.mem_append] at hd
    obtain rfl | hd | hd := hd
    · exact ⟨v, List.mem_cons_self, .refl⟩
    · obtain ⟨r, hr, hpath⟩ := ihchildren d hd
      obtain ⟨c, hc, rfl⟩ := List.mem_map.mp hr
      have hchild : Child (v :: (below ++ after)) v.block c := hbelow (hchildren.roots_subset hr)
      exact ⟨v, List.mem_cons_self, .head hchild (ReflTransGen.mono (child_le hbelow) _ _ hpath)⟩
    · obtain ⟨r, hr, hpath⟩ := ihrest d hd
      exact ⟨r, List.mem_cons_of_mem v hr, ReflTransGen.mono (child_le hafter) _ _ hpath⟩

end Forest

/-- The blocks of `below` are those that `b` leads to, child by child. -/
def Subtree (vs below : List Visit) (b : BlockId) : Prop :=
  ∀ d, d ∈ blocks below ↔ TransGen (Child vs) b d

/-- Where the children of the blocks of a part are in it, its subtrees are those of the whole. -/
theorem Subtree.extend {part below : List Visit} (h : Subtree part below b) (hb : b ∈ blocks part)
    (hsub : part ⊆ vs) (hclosed : ∀ c d, c ∈ blocks part → Child vs c d → Child part c d) :
    Subtree vs below b := by
  refine fun d => (h d).trans ⟨TransGen.mono (child_le hsub) _ _, fun hpath => ?_⟩
  induction hpath with
  | single hchild => exact .single (hclosed _ _ hb hchild)
  | tail _ hchild ih =>
    obtain ⟨_, -, hlast⟩ := TransGen.tail'_iff.mp ih
    exact .tail ih (hclosed _ _ (Child.mem hlast) hchild)

namespace Forest

section Node

variable {below after : List Visit} {new : List BlockId}
  (hchildren : Forest f (new.map (⟨·, some v.block⟩)) below)
include hchildren

/-- A block that no root is entered from has its children in the trees where it stands itself. -/
theorem child_node (hentry : ∀ r ∈ v :: roots, r.parent ≠ some b) (hrest : Forest f roots after)
    (hbc : Child (v :: (below ++ after)) b c) :
    (Child below b c ∧ (b = v.block ∨ b ∈ blocks below)) ∨
    (Child after b c ∧ b ∈ blocks after) := by
  obtain heq | hmem := List.mem_cons.mp hbc
  · exact absurd (by rw [← heq]) (hentry v List.mem_cons_self)
  obtain hmem | hmem := List.mem_append.mp hmem
  · refine .inl ⟨hmem, (hchildren.child_cases hmem).imp_left fun ⟨r, hr, hparent⟩ => ?_⟩
    obtain ⟨_, -, rfl⟩ := List.mem_map.mp hr
    exact (Option.some.inj hparent).symm
  · refine .inr ⟨hmem, (hrest.child_cases hmem).resolve_left fun ⟨r, hr, hparent⟩ => ?_⟩
    exact hentry r (List.mem_cons_of_mem v hr) hparent

theorem subtree_root (hclosed : ∀ c d, c = v.block ∨ c ∈ blocks below →
    Child (v :: (below ++ after)) c d → Child below c d) :
    Subtree (v :: (below ++ after)) below v.block := by
  have hbelow : below ⊆ v :: (below ++ after) := by simp
  intro d
  constructor
  · intro hd
    obtain ⟨r, hr, hpath⟩ := hchildren.reached d hd
    obtain ⟨c, hc, rfl⟩ := List.mem_map.mp hr
    have hfirst : Child (v :: (below ++ after)) v.block c := hbelow (hchildren.roots_subset hr)
    exact .head' hfirst (ReflTransGen.mono (child_le hbelow) _ _ hpath)
  · intro hpath
    induction hpath with
    | single hchild => exact (hclosed _ _ (.inl rfl) hchild).mem
    | tail _ hchild ih => exact (hclosed _ _ (.inr ih) hchild).mem

end Node

/-- Behind a visit stands its subtree, in one piece. -/
theorem subtree (h : Forest f roots vs) (hnodup : (blocks vs).Nodup)
    (houtside : ∀ r ∈ roots, ∀ p, r.parent = some p → p ∉ blocks vs) :
    ∀ w ∈ vs, ∃ before below after, vs = before ++ w :: (below ++ after) ∧
      Subtree vs below w.block := by
  induction h with
  | nil => exact fun w hw => absurd hw List.not_mem_nil
  | @node roots below after v new _ hchildren hrest ihchildren ihrest =>
    have hbelow : below ⊆ v :: (below ++ after) := by simp
    have hafter : after ⊆ v :: (below ++ after) := by simp
    rw [blocks_cons, blocks_append, List.nodup_cons, List.nodup_append', List.mem_append,
      not_or] at hnodup
    obtain ⟨⟨hvbelow, hvafter⟩, hnodupBelow, hnodupAfter, hdisjoint⟩ := hnodup
    have hentry : ∀ c ∈ blocks (v :: (below ++ after)), ∀ r ∈ v :: roots, r.parent ≠ some c :=
      fun c hc r hr hparent => houtside r hr c hparent hc
    -- Blocks are listed once, so a block of one part has no children in the other.
    have hclosed : ∀ c d, c = v.block ∨ c ∈ blocks below → Child (v :: (below ++ after)) c d →
        Child below c d := by
      intro c d hc hchild
      have hmem : c ∈ blocks (v :: (below ++ after)) := by
        rw [blocks_cons, blocks_append]
        exact List.mem_cons.mpr (hc.imp_right (List.mem_append_left _))
      obtain ⟨hbelow, -⟩ | ⟨-, hc'⟩ := hchildren.child_node (hentry c hmem) hrest hchild
      · exact hbelow
      · obtain rfl | hc := hc
        · exact absurd hc' hvafter
        · exact absurd hc' (hdisjoint hc)
    have hclosed' : ∀ c d, c ∈ blocks after → Child (v :: (below ++ after)) c d →
        Child after c d := by
      intro c d hc hchild
      have hmem : c ∈ blocks (v :: (below ++ after)) := List.map_subset _ hafter hc
      obtain ⟨-, rfl | hc'⟩ | ⟨hafter, -⟩ := hchildren.child_node (hentry c hmem) hrest hchild
      · exact absurd hc hvafter
      · exact absurd hc (hdisjoint hc')
      · exact hafter
    intro w hw
    obtain rfl | hw := List.mem_cons.mp hw
    · exact ⟨[], below, after, rfl, hchildren.subtree_root hclosed⟩
    obtain hw | hw := List.mem_append.mp hw
    · have hkids : ∀ r ∈ new.map (⟨·, some v.block⟩ : BlockId → Visit), ∀ p, r.parent = some p →
          p ∉ blocks below := by
        intro r hr p hparent
        obtain ⟨_, -, rfl⟩ := List.mem_map.mp hr
        cases hparent
        exact hvbelow
      obtain ⟨before, sub, rest, heq, hsub⟩ := ihchildren hnodupBelow hkids w hw
      exact ⟨v :: before, sub, rest ++ after, by simp [heq],
        hsub.extend (block_mem_blocks hw) hbelow fun c d hc => hclosed c d (.inr hc)⟩
    · have hroots : ∀ r ∈ roots, ∀ p, r.parent = some p → p ∉ blocks after :=
        fun r hr p hparent hp => houtside r (List.mem_cons_of_mem v hr) p hparent
          (List.map_subset _ hafter hp)
      obtain ⟨before, sub, rest, heq, hsub⟩ := ihrest hnodupAfter hroots w hw
      exact ⟨v :: (below ++ before), sub, rest, by simp [heq],
        hsub.extend (block_mem_blocks hw) hafter hclosed'⟩

end Forest

/-! ### What the walk lists -/

theorem Grows.forest (h : Grows f seen stack vs seen') : Forest f stack vs := by
  induction h with
  | done => exact .nil
  | visit v hclaims _ ih =>
    obtain ⟨below, after, rfl, hbelow, hafter⟩ := ih.split
    exact .node v (claims_of_eq hclaims).sublist hbelow hafter

theorem Walks.forest (h : Walks f seen l vs) :
    ∃ roots, Forest f roots vs ∧ ∀ r ∈ roots, r.parent = none := by
  induction h with
  | done => exact ⟨[], .nil, fun r hr => absurd hr List.not_mem_nil⟩
  | skip _ _ ih => exact ih
  | @root _ _ _ _ _ b _ hgrows _ ih =>
    obtain ⟨roots, hforest, hroots⟩ := ih
    exact ⟨⟨b, none⟩ :: roots, hgrows.forest.append hforest, List.forall_mem_cons.mpr ⟨rfl, hroots⟩⟩

def Edge (f : Fragment) (b c : BlockId) : Prop := c ∈ (f.block b).edges

theorem sound_nil : Sound f [] [] := ⟨List.nodup_nil, List.nil_subset _, List.nil_subset _⟩

theorem walks_visits (hf : Graph f) : Walks f [] f.order (visits f) :=
  walks_trees hf sound_nil (List.Subset.refl _)

theorem perm_visits (hf : Graph f) : (blocks (visits f)).Perm f.order := by
  obtain ⟨hnodup, hsubset, hmem⟩ := (walks_visits hf).covers hf sound_nil (List.Subset.refl _)
  rw [List.append_nil] at hnodup hsubset hmem
  exact (List.perm_ext_iff_of_nodup hnodup hf.order_nodup).mpr fun b =>
    ⟨fun hb => hsubset hb, fun hb => hmem hb⟩

/-- The walk from the first block visits what can be reached from it. -/
theorem Grows.reached (h : Grows f [b] [⟨b, none⟩] vs seen') (hpath : ReflTransGen (Edge f) b c) :
    ReflTransGen (Child vs) b c := by
  have hperm : seen'.Perm (blocks vs) := by simpa using h.perm_root
  have hseen : c ∈ seen' := by
    induction hpath with
    | refl => exact h.subset List.mem_cons_self
    | tail _ hedge ih =>
      obtain ⟨w, hw, rfl⟩ := List.mem_map.mp (hperm.mem_iff.mp ih)
      exact h.edges_mem w hw _ hedge
  obtain ⟨r, hr, hpath⟩ := h.forest.reached c (hperm.mem_iff.mp hseen)
  obtain rfl := List.mem_singleton.mp hr
  exact hpath

theorem Walks.first (h : Walks f [] (b :: l) vs) : vs.head? = some ⟨b, none⟩ ∧
    ∀ c, ReflTransGen (Edge f) b c → ReflTransGen (Child vs) b c := by
  cases h with
  | skip hold => cases hold
  | root _ hgrows _ =>
    constructor
    · cases hgrows
      rfl
    · exact fun c hpath =>
        ReflTransGen.mono (child_le (List.subset_append_left _ _)) _ _ (hgrows.reached hpath)

/-- The walk ends and visits every block once. Right behind a block stand the blocks of its subtree
and no other. A block that is no root is entered along an edge from another one. The first tree has
the first block as its root and holds what can be reached from there. -/
theorem visits_cover (hf : Graph f) :
    Walks f [] f.order (visits f) ∧
    (blocks (visits f)).Nodup ∧ (∀ b, b ∈ blocks (visits f) ↔ b ∈ f.order) ∧
    (∀ v ∈ visits f, ∃ before below after, visits f = before ++ v :: (below ++ after) ∧
      Subtree (visits f) below v.block) ∧
    (∀ b c, Child (visits f) b c → Edge f b c ∧ b ∈ blocks (visits f)) ∧
    (∀ first rest, f.order = first :: rest → (visits f).head? = some ⟨first, none⟩ ∧
      ∀ b, ReflTransGen (Edge f) first b ↔ ReflTransGen (Child (visits f)) first b) := by
  have hwalks := walks_visits hf
  have hperm := perm_visits hf
  have hnodup := hperm.nodup_iff.mpr hf.order_nodup
  obtain ⟨roots, hforest, hroots⟩ := hwalks.forest
  have hedge : ∀ b c, Child (visits f) b c → Edge f b c ∧ b ∈ blocks (visits f) := by
    intro b c hchild
    obtain hroot | ⟨p, hp, hparent, hedge⟩ := hforest.parent _ hchild
    · cases hroots _ hroot
    · cases hparent
      exact ⟨hedge, hp⟩
  refine ⟨hwalks, hnodup, fun b => hperm.mem_iff, ?_, hedge, fun first rest horder => ?_⟩
  · refine hforest.subtree hnodup fun r hr p hparent => ?_
    rw [hroots r hr] at hparent
    cases hparent
  · rw [horder] at hwalks
    obtain ⟨hhead, hreached⟩ := hwalks.first
    exact ⟨hhead, fun b => ⟨hreached b, ReflTransGen.mono (fun b c h => (hedge b c h).1) _ _⟩⟩

/-- Two loops, with an edge from the second back to the first, and two blocks with edges to
themselves. -/
def loops : Fragment where
  blocks := #[{ edges := [⟨2⟩, ⟨1⟩] }, { edges := [⟨1⟩, ⟨0⟩] }, { edges := [⟨1⟩, ⟨2⟩] },
    { edges := [⟨4⟩, ⟨0⟩] }, { edges := [⟨3⟩] }]
  order := [⟨0⟩, ⟨3⟩, ⟨1⟩, ⟨2⟩, ⟨4⟩]

theorem visits_cover_loops : Graph loops ∧ visits loops =
    [⟨⟨0⟩, none⟩, ⟨⟨2⟩, some ⟨0⟩⟩, ⟨⟨1⟩, some ⟨0⟩⟩, ⟨⟨3⟩, none⟩, ⟨⟨4⟩, some ⟨3⟩⟩] ∧
    Walks loops [] loops.order (visits loops) ∧
    ReflTransGen (Edge loops) ⟨0⟩ ⟨1⟩ ∧ ReflTransGen (Child (visits loops)) ⟨0⟩ ⟨1⟩ := by
  have hf : Graph loops := ⟨by decide, by decide⟩
  have hvisits : visits loops = [⟨⟨0⟩, none⟩, ⟨⟨2⟩, some ⟨0⟩⟩, ⟨⟨1⟩, some ⟨0⟩⟩, ⟨⟨3⟩, none⟩,
    ⟨⟨4⟩, some ⟨3⟩⟩] := by decide
  obtain ⟨hwalks, -, -, -, -, hfirst⟩ := visits_cover hf
  have hthere : Edge loops ⟨0⟩ ⟨2⟩ := by simp [Edge, loops, Fragment.block]
  have hback : Edge loops ⟨2⟩ ⟨1⟩ := by simp [Edge, loops, Fragment.block]
  have hpath : ReflTransGen (Edge loops) ⟨0⟩ ⟨1⟩ := .tail (.single hthere) hback
  exact ⟨hf, hvisits, hwalks, hpath, ((hfirst _ _ rfl).2 _).mp hpath⟩

end Recompiler.Pass.BlockTree
