import Recompiler.Proofs.X64.Selection
import Recompiler.Proofs.X64.Standing

/-!
Where the jumps of a block lead. The code of a fragment is laid out item by item, so a place in it
lies in the code of one operation or in what is put around them, and the label that a jump names can
be told from the part that holds it.
-/
namespace Recompiler.X64

open IR CodeBuffer

/-! ### Places in a list that is made of parts -/

section
variable {α β : Type}

theorem split_append {xs ys pre post : List α} {x : α} (h : xs ++ ys = pre ++ x :: post) :
    (∃ z, xs = pre ++ x :: z ∧ post = z ++ ys) ∨ (∃ z, pre = xs ++ z ∧ ys = z ++ x :: post) := by
  obtain ⟨z, hpre, hys⟩ | ⟨z, hxs, hpost⟩ := List.append_eq_append_iff.mp h
  · exact .inr ⟨z, hpre, hys⟩
  · cases z with
    | nil => exact .inr ⟨[], by simpa using hxs.symm, hpost.symm⟩
    | cons y z =>
      cases hpost
      exact .inl ⟨z, hxs, rfl⟩

theorem split_flatMap {xs : List β} {g : β → List α} {pre post : List α} {x : α}
    (h : xs.flatMap g = pre ++ x :: post) : ∃ earlier b later p q, xs = earlier ++ b :: later ∧
      g b = p ++ x :: q ∧ pre = earlier.flatMap g ++ p ∧ post = q ++ later.flatMap g := by
  induction xs generalizing pre with
  | nil => exact absurd h (by simp)
  | cons b xs ih =>
    rw [List.flatMap_cons] at h
    obtain ⟨z, hb, hpost⟩ | ⟨z, hpre, hxs⟩ := split_append h
    · exact ⟨[], b, xs, pre, z, rfl, hb, rfl, hpost⟩
    · obtain ⟨earlier, b', later, p, q, rfl, hb, rfl, hpost⟩ := ih hxs
      exact ⟨b :: earlier, b', later, p, q, rfl, hb, by simp [hpre], hpost⟩

end

theorem eq_map_ok {ε α : Type} {xs : List (Except ε α)} {as : List α} (h : xs.mapM id = .ok as) :
    xs = as.map .ok := by
  induction xs generalizing as with
  | nil =>
    cases h
    rfl
  | cons x xs ih =>
    rw [List.mapM_cons] at h
    obtain ⟨a, hx, h⟩ := Interp.bind_eq_ok h
    obtain ⟨as', hxs, h⟩ := Interp.bind_eq_ok h
    cases h
    rw [List.map_cons, ← ih hxs]
    exact congrArg (· :: xs) hx

/-! ### Layout -/

/-- The code of a part that is not refused. -/
def got (x : Assembling Assembly) : Assembly :=
  match x with
  | .ok a => a
  | .error _ => []

namespace Lowering

variable (c : Lowering)

/-- The code of an operation that is not refused. -/
def lines (i : InstrId) : Assembly := got (c.instr i)

/-- What code is laid out for, in order: the start of a block, or an operation. -/
def items : List (BlockId ⊕ InstrId) :=
  c.fragment.order.flatMap fun b => .inl b :: (c.fragment.blockInstrs b).map .inr

def itemLines : BlockId ⊕ InstrId → Assembly
  | .inl b => [.label (.block b)]
  | .inr i => c.lines i

/-- The end of the code: what a last block does that does not branch, and the way out. -/
def ending : Assembly :=
  [.instr (.movImm tmp0 dynamicExit.toUInt64), .label .epilogue] ++ c.epilogue

/-- The code of the fragment, where nothing is refused. -/
def layout : Assembly := c.prologue ++ c.items.flatMap c.itemLines ++ c.ending

variable {c}

theorem code_eq_layout {a : Assembly} (h : c.code = .ok a) :
    a = c.layout ∧ ∀ i ∈ c.fragment.allInstrs, c.instr i = .ok (c.lines i) := by
  obtain ⟨as, has, h⟩ := Interp.bind_eq_ok h
  cases h
  have hparts := eq_map_ok has
  have hgot : as.flatten = c.parts.flatMap got := by
    rw [hparts, List.flatMap_map, ← List.flatMap_id]
    rfl
  refine ⟨?_, fun i hi => ?_⟩
  · rw [hgot]
    unfold parts layout items
    simp only [List.flatMap_append, List.flatMap_assoc, List.flatMap_cons, List.flatMap_nil,
      List.append_nil, List.flatMap_map]
    rfl
  · obtain ⟨b, hb, hi⟩ := List.mem_flatMap.mp hi
    have hmem : c.instr i ∈ c.parts := by
      unfold parts
      refine List.mem_append_left _ (List.mem_append_right _ (List.mem_flatMap.mpr ⟨b, hb, ?_⟩))
      exact List.mem_cons_of_mem _ (List.mem_map_of_mem hi)
    rw [hparts] at hmem
    obtain ⟨a, -, ha⟩ := List.mem_map.mp hmem
    rw [lines, ← ha]
    rfl

theorem forward_lines (i : InstrId) : Assembly.Forward i (c.lines i) := by
  unfold lines
  cases h : c.instr i with
  | ok a => exact c.forward_instr i a h
  | error e => trivial

/-! ### Places in the layout -/

variable (c) in
/-- Where a line of the layout stands. -/
inductive Place (pre : Assembly) : Line → Assembly → Prop
  /-- Before or behind all operations. -/
  | around {i : Instruction} {post : Assembly} (hjump : i.isJump = false) :
    Place pre (.instr i) post
  /-- At the start of a block. -/
  | block {earlier later : List (BlockId ⊕ InstrId)} {b : BlockId} {post : Assembly}
      (hitems : c.items = earlier ++ .inl b :: later)
      (hpre : pre = c.prologue ++ earlier.flatMap c.itemLines)
      (hpost : post = later.flatMap c.itemLines ++ c.ending) : Place pre (.label (.block b)) post
  /-- In the code of an operation. -/
  | operation {earlier later : List (BlockId ⊕ InstrId)} {i : InstrId} {x y : Assembly} {l : Line}
      {post : Assembly} (hitems : c.items = earlier ++ .inr i :: later)
      (hlines : c.lines i = x ++ l :: y)
      (hpre : pre = c.prologue ++ earlier.flatMap c.itemLines ++ x) : Place pre l post
  /-- Behind what a last block does that does not branch. -/
  | exit (hpre : pre = c.prologue ++ c.items.flatMap c.itemLines ++
      [.instr (.movImm tmp0 dynamicExit.toUInt64)]) : Place pre (.label .epilogue) c.epilogue

theorem plain_prologue {l : Line} (h : l ∈ c.prologue) : ∃ i, l = .instr i ∧ i.isJump = false := by
  obtain h | h := List.mem_append.mp h
  · obtain ⟨r, -, rfl⟩ := List.mem_map.mp h
    exact ⟨_, rfl, rfl⟩
  · simp only [List.mem_cons, List.not_mem_nil, or_false] at h
    rcases h with rfl | rfl | rfl <;> exact ⟨_, rfl, rfl⟩

theorem plain_epilogue {l : Line} (h : l ∈ c.epilogue) : ∃ i, l = .instr i ∧ i.isJump = false := by
  obtain h | h := List.mem_append.mp h
  · obtain h | h := List.mem_append.mp h
    · exact ⟨_, List.mem_singleton.mp h, rfl⟩
    · obtain ⟨r, -, rfl⟩ := List.mem_map.mp h
      exact ⟨_, rfl, rfl⟩
  · exact ⟨_, List.mem_singleton.mp h, rfl⟩

theorem place_of_split {pre post : Assembly} {l : Line} (h : c.layout = pre ++ l :: post) :
    c.Place pre l post := by
  obtain ⟨z, hbody, hpost⟩ | ⟨z, hpre, hending⟩ := split_append h
  · obtain ⟨y, hprologue, -⟩ | ⟨y, hpre, hitems⟩ := split_append hbody
    · have hmem : l ∈ c.prologue := hprologue ▸ List.mem_append_right pre List.mem_cons_self
      obtain ⟨i, rfl, hjump⟩ := plain_prologue hmem
      exact .around hjump
    · obtain ⟨earlier, item, later, p, q, hsplit, hitem, hp, hq⟩ := split_flatMap hitems
      cases item with
      | inl b =>
        -- The label is all there is.
        have hsingle : p = [] ∧ l = .label (.block b) ∧ q = [] := by
          cases p with
          | nil =>
            cases hitem
            exact ⟨rfl, rfl, rfl⟩
          | cons a p => exact absurd (List.cons.inj hitem).2 (by simp)
        obtain ⟨rfl, rfl, rfl⟩ := hsingle
        refine .block hsplit ?_ ?_
        · rw [hpre, hp, List.append_nil]
        · rw [hpost, hq, List.nil_append]
      | inr i =>
        refine .operation hsplit hitem ?_
        rw [hpre, hp, List.append_assoc]
  · cases z with
    | nil =>
      cases hending
      exact .around rfl
    | cons a z =>
      obtain ⟨rfl, hrest⟩ := List.cons.inj hending
      cases z with
      | nil =>
        cases hrest
        exact .exit hpre
      | cons a z =>
        have hmem : l ∈ c.epilogue := by
          rw [show c.epilogue = z ++ l :: post from (List.cons.inj hrest).2]
          exact List.mem_append_right z List.mem_cons_self
        obtain ⟨i, rfl, hjump⟩ := plain_epilogue hmem
        exact .around hjump

/-- An operation that stands in one place. -/
theorem items_unique {earlier later earlier' later' : List (BlockId ⊕ InstrId)} {i : InstrId}
    (hnodup : c.fragment.allInstrs.Nodup) (h : c.items = earlier ++ .inr i :: later)
    (h' : c.items = earlier' ++ .inr i :: later') : earlier' = earlier := by
  have hinstrs : c.items.filterMap Sum.getRight? = c.fragment.allInstrs := by
    unfold items Fragment.allInstrs
    rw [List.filterMap_flatMap]
    refine congrArg (fun g => c.fragment.order.flatMap g) (funext fun b => ?_)
    change ((c.fragment.blockInstrs b).map Sum.inr).filterMap Sum.getRight? = _
    rw [List.filterMap_map]
    exact List.filterMap_some
  rw [← hinstrs, h, List.filterMap_append, List.filterMap_cons] at hnodup
  simp only [Sum.getRight?_inr] at hnodup
  obtain ⟨-, hlater, hdisjoint⟩ := List.nodup_append.mp hnodup
  have hmem {xs : List (BlockId ⊕ InstrId)} (hx : .inr i ∈ xs) : i ∈ xs.filterMap Sum.getRight? :=
    List.mem_filterMap.mpr ⟨_, hx, rfl⟩
  refine ((List.append_cons_inj_of_notMem (fun hi => ?_) fun hi => ?_).mp (h.symm.trans h')).1.symm
  · exact hdisjoint i (hmem hi) i List.mem_cons_self rfl
  · exact (List.nodup_cons.mp hlater).1 (hmem hi)

/-! ### Targets -/

variable (c) in
/-- Where the jump behind `pre` is meant to lead: a target, the code before it and the code
behind. -/
inductive Lands (pre : Assembly) (cond : Option Cond) : Label → Assembly → Assembly → Prop
  /-- To the first byte of a block. -/
  | block {earlier later : List (BlockId ⊕ InstrId)} {b : BlockId}
      (hitems : c.items = earlier ++ .inl b :: later) :
      Lands pre cond (.block b) (c.prologue ++ earlier.flatMap c.itemLines)
        (later.flatMap c.itemLines ++ c.ending)
  /-- To the way out, past the instruction for a block that does not branch. -/
  | exit : Lands pre cond .epilogue (c.prologue ++ c.items.flatMap c.itemLines ++
      [.instr (.movImm tmp0 dynamicExit.toUInt64)]) c.epilogue
  /-- Over code of the same operation. -/
  | skip {earlier later : List (BlockId ⊕ InstrId)} {i : InstrId} {n : Nat}
      {x skipped y after : Assembly} (hitems : c.items = earlier ++ .inr i :: later)
      (hlines : c.lines i =
        x ++ .jump cond (.inside i n) :: (skipped ++ .label (.inside i n) :: y))
      (hpre : pre = c.prologue ++ earlier.flatMap c.itemLines ++ x) :
      Lands pre cond (.inside i n) (pre ++ .jump cond (.inside i n) :: skipped) after

theorem lands_of_split {pre post before after : Assembly} {cond : Option Cond} {target : Label}
    (hnodup : c.fragment.allInstrs.Nodup) (hjump : c.layout = pre ++ .jump cond target :: post)
    (hlabel : c.layout = before ++ .label target :: after) :
    c.Lands pre cond target before after := by
  cases place_of_split hjump with
  | @operation earlier later i x y _ _ hitems hlines hpre =>
    cases place_of_split hlabel with
    | block hitems' hbefore hafter =>
      subst hbefore hafter
      exact .block hitems'
    | exit hbefore =>
      subst hbefore
      exact .exit
    | @operation _ _ j x' y' _ _ hitems' hlines' hbefore =>
      -- The label belongs to an operation, and so does the jump that names it.
      have howner : ∃ n, target = .inside j n :=
        (forward_lines j).label (hlines' ▸ List.mem_append_right x' List.mem_cons_self)
      obtain ⟨n, rfl⟩ := howner
      obtain ⟨rfl, hskips⟩ := (hlines ▸ forward_lines i).skips
      obtain ⟨skipped, rest, rfl⟩ := List.append_of_mem hskips
      have hearlier := items_unique hnodup hitems hitems'
      have honce := (hlines' ▸ forward_lines j : Assembly.Forward j _).once
      have hsame : x' ++ .label (.inside j n) :: y' =
          (x ++ .jump cond (.inside j n) :: skipped) ++ .label (.inside j n) :: rest := by
        rw [← hlines', hlines, List.append_assoc]
        rfl
      obtain ⟨rfl, -, rfl⟩ := (List.append_cons_inj_of_notMem honce.1 honce.2).mp hsame
      have hpre' : before = pre ++ .jump cond (.inside j n) :: skipped := by
        rw [hbefore, hpre, hearlier]
        simp only [List.append_assoc]
      subst hpre'
      exact .skip hitems hlines hpre

theorem plain_of_split {pre post : Assembly} {i : Instruction}
    (h : c.layout = pre ++ .instr i :: post) : i.isJump = false := by
  cases place_of_split h with
  | around hjump => exact hjump
  | @operation _ _ j x _ _ _ _ hlines _ =>
    exact (forward_lines j).instr (hlines ▸ List.mem_append_right x List.mem_cons_self)

end Lowering

namespace Backend

variable {b b' : Backend} {addr : UInt32} {f : Fragment} {handle : Nat}

/-- The bytes of a block are the linked code of its fragment. -/
theorem codeBytes_assemble (h : b.assemble addr f = (b', .ok handle)) :
    ∃ code, b.instructions f = .ok code ∧
      b'.codeBytes handle = .ok (code.flatMap Instruction.pieces).flatten := by
  obtain ⟨e, heq⟩ | ⟨buffer, hkeeps, ⟨r, heq⟩ | ⟨-, heq, code, hcode, happends⟩⟩ :=
    b.assemble_cases addr f
  · rw [heq] at h
    cases h
  · rw [heq] at h
    cases h
  · rw [heq] at h
    cases h
    refine ⟨code, hcode, ?_⟩
    have hstored :
      ((b.blocks.push (some ⟨addr, b.used, buffer.offset - b.used⟩))[b.blocks.size]?).join
        = some ⟨addr, b.used, buffer.offset - b.used⟩ := by rw [join_push, if_pos rfl]
    unfold codeBytes stored stored?
    rw [hstored]
    change buffer.slice b.buffer.offset (b.buffer.offset + (buffer.offset - b.buffer.offset)) = _
    rw [Nat.add_sub_cancel' happends.offset_le]
    unfold CodeBuffer.slice
    rw [if_pos (by simpa using happends.offset_le)]
    exact congrArg _ happends.written

/-- Every jump of an assembled block lands where it should. The code of the block stands in the
buffer line by line; no line but the jumps jumps; a jump to a block reaches the first byte of that
block, a jump to the way out reaches it behind the instruction for blocks that do not branch, and a
jump within an operation reaches the line behind the code that it skips. So the bytes of the block
are the same wherever it starts. -/
theorem jumps_land (hnodup : f.allInstrs.Nodup) (h : b.assemble addr f = (b', .ok handle)) :
    ∃ c, Lowering.ofFragment b.offsets f = .ok c ∧
    (∀ i ∈ f.allInstrs, c.instr i = .ok (c.lines i)) ∧
    b'.stored? handle = some ⟨addr, b.used, c.layout.size⟩ ∧
    (∀ (pre : Assembly) i post, c.layout = pre ++ .instr i :: post → i.isJump = false ∧
      b'.buffer.view (b.used + pre.size) (b.used + pre.size + i.bytes.length) = i.bytes) ∧
    (∀ (pre : Assembly) cond target post, c.layout = pre ++ .jump cond target :: post →
      ∃ (disp : Int32) (before after : Assembly),
        b'.buffer.view (b.used + pre.size) (b.used + pre.size + (Line.jump cond target).size) =
          (Line.jumpBy cond disp).bytes ∧
        (b.used + pre.size + (Line.jump cond target).size : Nat) + disp.toInt =
          (b.used + before.size : Nat) ∧
        c.layout = before ++ .label target :: after ∧ c.Lands pre cond target before after) ∧
    ∀ (b₂ b₂' : Backend) addr₂ handle₂, b₂.offsets = b.offsets →
      b₂.assemble addr₂ f = (b₂', .ok handle₂) → b₂'.codeBytes handle₂ = b'.codeBytes handle := by
  obtain ⟨c, a, hc, ha, hstands, -, hstored⟩ := stands_assemble h
  obtain ⟨rfl, hinstrs⟩ := Lowering.code_eq_layout ha
  have hfragment := Lowering.fragment_ofFragment hc
  rw [← hfragment] at hnodup
  refine ⟨c, hc, fun i hi => hinstrs i (hfragment.symm ▸ hi), hstored, fun pre i post hsplit => ?_,
    fun pre cond target post hsplit => ?_, ?_⟩
  · exact ⟨Lowering.plain_of_split hsplit, hstands.instr pre i post hsplit⟩
  · obtain ⟨disp, before, after, hbytes, hlabel, -, hdisp⟩ :=
      hstands.jump pre cond target post hsplit
    exact ⟨disp, before, after, hbytes, hdisp, hlabel, Lowering.lands_of_split hnodup hsplit hlabel⟩
  · intro b₂ b₂' addr₂ handle₂ hoffsets h₂
    obtain ⟨code, hcode, hbytes⟩ := codeBytes_assemble h
    obtain ⟨code₂, hcode₂, hbytes₂⟩ := codeBytes_assemble h₂
    have hsame : b₂.instructions f = b.instructions f := by
      unfold instructions
      rw [hoffsets]
    rw [hsame, hcode] at hcode₂
    cases hcode₂
    rw [hbytes₂, hbytes]

/-- The first block of `hop` jumps to the second one. -/
theorem jumps_land_hop : ∃ (c : Lowering) (b' : Backend) (disp : Int32) (before after : Assembly),
    Lowering.ofFragment ⟨0, 4, 8, 12⟩ hop = .ok c ∧
    (ofCapacity ⟨0, 4, 8, 12⟩ 4096).assemble 0 hop = (b', .ok 0) ∧
    b'.buffer.view 20 25 = (Line.jumpBy none disp).bytes ∧ 25 + disp.toInt = before.size ∧
    c.layout = before ++ .label (.block ⟨1⟩) :: after := by
  have hok : ((ofCapacity ⟨0, 4, 8, 12⟩ 4096).assemble 0 hop).2.toOption.map (· == 0) =
      some true := by decide +kernel
  obtain ⟨n, hresult, hn⟩ := Interp.eq_ok_of_toOption hok
  obtain rfl : n = 0 := by simpa using hn
  generalize h : (ofCapacity ⟨0, 4, 8, 12⟩ 4096).assemble 0 hop = outcome at hresult
  obtain ⟨b', result⟩ := outcome
  obtain rfl : result = .ok 0 := hresult
  obtain ⟨c, hc, -, -, -, hjumps, -⟩ := jumps_land (by decide) h
  obtain ⟨post, hsplit, hsize⟩ : ∃ post, c.layout =
      c.prologue ++ [.label (.block ⟨0⟩)] ++ .jump none (.block ⟨1⟩) :: post ∧
      Assembly.size (c.prologue ++ [.label (.block ⟨0⟩)]) = 20 := by
    cases hc
    exact ⟨_, rfl, by decide +kernel⟩
  have hlong : (Line.jump none (.block ⟨1⟩)).size = 5 := by decide +kernel
  obtain ⟨disp, before, after, hbytes, hdisp, hlabel, -⟩ := hjumps _ _ _ _ hsplit
  rw [hsize, hlong] at hbytes hdisp
  refine ⟨c, b', disp, before, after, hc, rfl, hbytes, ?_, hlabel⟩
  exact hdisp.trans (congrArg Nat.cast (Nat.zero_add _))

end Backend
end Recompiler.X64
