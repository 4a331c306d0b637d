import Recompiler.Proofs.Jit.Dispatch

/-!
Direct access after a fault. The block that faulted loses direct access, and the only record of that
is its entry in the cache. Every request is a sequence of small changes, and each of them keeps the
record, with two exceptions: a compilation elsewhere that finds no room drops every entry, and a
compilation of the block itself that fails does not put its entry back.
-/
namespace Recompiler.Jit

open IR Pass Relation

variable {σ : Type} {cpu : Cpu σ} {j j₁ j' : Jit} {a addr : UInt32}

/-! ### The setting in the cache -/

namespace Cache

variable {c : Cache}

/-- Whether the block at an address has direct access, if there is a block. -/
def fast? (c : Cache) (x : UInt32) : Option Bool := (c.get? x).map Block.fast

theorem fast?_modify {g : Block → Block} (hg : ∀ b, (g b).addr = b.addr)
    (hfast : ∀ b, (g b).fast = b.fast) (y x : UInt32) : (c.modify y g).fast? x = c.fast? x := by
  unfold fast?
  rw [c.get?_modify hg]
  by_cases hx : x = y
  · rw [if_pos hx]
    cases c.get? x <;> simp [hfast]
  · rw [if_neg hx]

theorem fast?_dropIncoming (dst : UInt32) (e : Edge) (x : UInt32) :
    (c.dropIncoming dst e).fast? x = c.fast? x := by
  unfold dropIncoming
  apply c.fast?_modify <;> exact fun _ => rfl

theorem fast?_dropLink (e : Edge) (dst x : UInt32) : (c.dropLink e dst).fast? x = c.fast? x := by
  unfold dropLink
  apply c.fast?_modify <;> intro b <;> split <;> rfl

theorem fast?_foldl {α : Type} {op : Cache → α → Cache} {x : UInt32}
    (hop : ∀ c a, (op c a).fast? x = c.fast? x) (l : List α) (c : Cache) :
    (l.foldl op c).fast? x = c.fast? x := by
  induction l generalizing c with
  | nil => rfl
  | cons a l ih => rw [List.foldl_cons, ih, hop]

theorem fast?_invalidate (y x : UInt32) : (c.invalidate y).1.fast? x = c.fast? x := by
  cases h : c.get? y with
  | none => rw [invalidate_of_absent h]
  | some b =>
    rw [invalidate_eq h, fast?_foldl fun c o => fast?_dropIncoming _ _ _,
      fast?_foldl fun c e => fast?_dropLink _ _ _]
    unfold fast?
    rw [get?_cutAt]
    by_cases hx : x = y
    · rw [if_pos hx]
      cases c.get? x <;> rfl
    · rw [if_neg hx]

theorem fast?_remove (y x : UInt32) :
    (c.remove y).1.fast? x = if x = y then none else c.fast? x := by
  have hforget : (c.remove y).1.fast? x = if x = y then none else (c.invalidate y).1.fast? x := by
    unfold fast?
    rw [remove_eq, get?_forget]
    split <;> rfl
  rw [hforget, fast?_invalidate]

theorem fast?_insert {b : Block} {c' : Cache} (h : c.insert b = .ok c') (x : UInt32) :
    c'.fast? x = if x = b.addr then some b.fast else c.fast? x := by
  unfold fast?
  rw [get?_insert c h]
  split <;> rfl

theorem fast?_link (source : UInt32) (slot : Nat) (dst x : UInt32) :
    (c.link source slot dst).fast? x = c.fast? x := by
  obtain h | ⟨old, -, h⟩ := c.link_cases source slot dst
  · rw [h]
  have hset : (c.modify source (·.setLink slot (some dst))).fast? x = c.fast? x := by
    apply c.fast?_modify <;> exact fun _ => rfl
  rw [h]
  unfold connect
  cases old with
  | none => rw [fast?_modify, hset] <;> exact fun _ => rfl
  | some old => rw [fast?_modify, fast?_dropIncoming, hset] <;> exact fun _ => rfl

end Cache

/-! ### The compilations that a request asks for -/

/-- A block at an address is compiled, for a state of the guest and of the recompiler. -/
structure Call (σ : Type) where
  w : World σ
  addr : UInt32
  jit : Jit

namespace Call

def find (w : World σ) (addr : UInt32) (j : Jit) : List (Call σ) :=
  match j.cache.lookup addr with
  | some _ => []
  | none => [⟨w, addr, j⟩]

def follow (cpu : Cpu σ) (w : World σ) (source : UInt32) (exit : Exit) (j : Jit) : List (Call σ) :=
  let pc := w.get32 cpu.offsets.pc
  match exit with
  | .dynamic => find w pc j
  | .static slot =>
    match j.cache.linked source slot with
    | some (dst, _) => if dst = pc then [] else find w pc j
    | none => find w pc j

def runBlocks (cpu : Cpu σ) (stop : Int) :
    Nat → UInt32 → Nat → World σ → Jit → List (Call σ)
  | 0, _, _, _, _ => []
  | fuel + 1, addr, code, w, j =>
    match (do j.backend.execute cpu.guest (← j.blockFuel code) code w) with
    | .error _ => []
    | .ok (exit, w) =>
      if cyclesLeft cpu w ≤ stop || w.get32 cpu.offsets.interrupts ≠ 0 then []
      else
        follow cpu w addr exit j ++
          match j.follow cpu w addr exit with
          | .ok (j, .ok code) => runBlocks cpu stop fuel (w.get32 cpu.offsets.pc) code w j
          | _ => []

def runSlice (cpu : Cpu σ) (w : World σ) (j : Jit) : List (Call σ) :=
  let left := cyclesLeft cpu w
  let addr := w.get32 cpu.offsets.pc
  find w addr j ++
    match j.find cpu w addr with
    | .ok (j, .ok code) =>
      runBlocks cpu (left - min left sliceCycles) (left.toNat + 1) addr code w j
    | _ => []

def runSlices (cpu : Cpu σ) : Nat → World σ → Jit → List (Call σ)
  | 0, _, _ => []
  | fuel + 1, w, j =>
    if cyclesLeft cpu w ≤ 0 then []
    else
      runSlice cpu w j ++
        match Jit.runSlice cpu w j with
        | .ok (w, j, .ok ()) =>
          match cpu.interruptCheck w with
          | .ok w => runSlices cpu fuel w j
          | .error _ => []
        | _ => []

def run (cpu : Cpu σ) (cycles : Int32) (w : World σ) (j : Jit) : List (Call σ) :=
  let w := w.set32 cpu.offsets.cycles cycles.toUInt32
  runSlices cpu (cycles.toInt.toNat + 1) (w.set32 cpu.offsets.instrs 0) j

def serve (cpu : Cpu σ) (j : Jit) : Request σ → List (Call σ)
  | .run cycles w => run cpu cycles w j
  | .compile w addr => [⟨w, addr, j⟩]
  | _ => []

def serveAll (cpu : Cpu σ) (j : Jit) : List (Request σ) → List (Call σ)
  | [] => []
  | r :: rs =>
    serve cpu j r ++
      match r.serve cpu j with
      | .ok j => serveAll cpu j rs
      | .error _ => []

end Call

/-! ### Requests as sequences of changes -/

variable {cs ds : List (Call σ)}

/-- A change of a recompiler that is part of a request, with the compilation if it is one. -/
inductive Change (cpu : Cpu σ) : Jit → List (Call σ) → Jit → Prop where
  | compile {j j' : Jit} {w : World σ} {addr : UInt32} {r : Except Error Nat}
      (h : j.compile cpu w addr = .ok (j', r)) : Change cpu j [⟨w, addr, j⟩] j'
  | linkExit (j : Jit) (source : UInt32) (slot : Nat) (dst : UInt32) :
      Change cpu j [] (j.linkExit source slot dst)
  | dropCode (j : Jit) (addr : UInt32) : Change cpu j [] (j.dropCode addr)
  | handleException {j j' : Jit} {host : Nat} {hit : Bool}
      (h : j.handleException host = .ok (j', hit)) : Change cpu j [] j'

/-- Any number of changes, with the compilations among them. -/
inductive Evolves (cpu : Cpu σ) : Jit → List (Call σ) → Jit → Prop where
  | refl (j : Jit) : Evolves cpu j [] j
  | tail {j j₁ j' : Jit} {cs ds : List (Call σ)} (path : Evolves cpu j cs j₁)
      (change : Change cpu j₁ ds j') : Evolves cpu j (cs ++ ds) j'

theorem Change.evolves (h : Change cpu j cs j') : Evolves cpu j cs j' := (Evolves.refl j).tail h

theorem Evolves.trans (h : Evolves cpu j cs j₁) (h' : Evolves cpu j₁ ds j') :
    Evolves cpu j (cs ++ ds) j' := by
  induction h' with
  | refl =>
    rw [List.append_nil]
    exact h
  | tail _ change ih =>
    rw [← List.append_assoc]
    exact ih.tail change

theorem evolves_find {w : World σ} {r : Except Error Nat}
    (h : j.find cpu w addr = .ok (j', r)) : Evolves cpu j (Call.find w addr j) j' := by
  unfold Jit.find at h
  unfold Call.find
  cases hcode : j.cache.lookup addr with
  | some code =>
    rw [hcode] at h
    cases h
    exact .refl _
  | none =>
    rw [hcode] at h
    exact (Change.compile h).evolves

theorem evolves_findLinked {w : World σ} {source : UInt32} {slot : Nat} {r : Except Error Nat}
    (h : j.findLinked cpu w source slot addr = .ok (j', r)) :
    Evolves cpu j (Call.find w addr j) j' := by
  unfold Jit.findLinked at h
  obtain ⟨⟨j₁, r₁⟩, hfind, h⟩ := Interp.bind_eq_ok h
  have hpath := evolves_find hfind
  cases r₁ with
  | error e =>
    cases h
    exact hpath
  | ok code =>
    cases h
    have hlinked := hpath.tail (.linkExit j₁ source slot addr)
    rwa [List.append_nil] at hlinked

theorem evolves_follow {w : World σ} {source : UInt32} {exit : Exit} {r : Except Error Nat}
    (h : j.follow cpu w source exit = .ok (j', r)) :
    Evolves cpu j (Call.follow cpu w source exit j) j' := by
  unfold Jit.follow at h
  unfold Call.follow
  cases exit with
  | dynamic => exact evolves_find h
  | static slot =>
    dsimp only at h ⊢
    cases hlinked : j.cache.linked source slot with
    | none =>
      rw [hlinked] at h
      exact evolves_findLinked h
    | some p =>
      obtain ⟨dst, code⟩ := p
      rw [hlinked] at h
      dsimp only at h ⊢
      split at h
      case isTrue hdst =>
        cases h
        rw [if_pos hdst]
        exact .refl _
      case isFalse hdst =>
        rw [if_neg hdst]
        exact evolves_findLinked h

theorem evolves_runBlocks {stop : Int} {fuel code : Nat} {w w' : World σ} {r : Except Error Unit}
    (h : runBlocks cpu stop fuel addr code w j = .ok (w', j', r)) :
    Evolves cpu j (Call.runBlocks cpu stop fuel addr code w j) j' := by
  induction fuel generalizing addr code w j with
  | zero => cases h
  | succ fuel ih =>
    unfold runBlocks at h
    rw [← bind_assoc] at h
    obtain ⟨⟨exit, w₁⟩, hexecute, h⟩ := Interp.bind_eq_ok h
    unfold Call.runBlocks
    rw [hexecute]
    dsimp only at h ⊢
    split at h
    case isTrue hstop =>
      cases h
      rw [if_pos hstop]
      exact .refl _
    case isFalse hstop =>
      obtain ⟨⟨j₁, r₁⟩, hfollow, h⟩ := Interp.bind_eq_ok h
      have hpath := evolves_follow hfollow
      rw [if_neg hstop, hfollow]
      cases r₁ with
      | error e =>
        cases h
        rw [List.append_nil]
        exact hpath
      | ok code' => exact hpath.trans (ih h)

theorem evolves_runSlice {w w' : World σ} {r : Except Error Unit}
    (h : runSlice cpu w j = .ok (w', j', r)) : Evolves cpu j (Call.runSlice cpu w j) j' := by
  unfold runSlice at h
  obtain ⟨⟨j₁, r₁⟩, hfind, h⟩ := Interp.bind_eq_ok h
  have hpath := evolves_find hfind
  unfold Call.runSlice
  dsimp only
  rw [hfind]
  cases r₁ with
  | error e =>
    cases h
    rw [List.append_nil]
    exact hpath
  | ok code => exact hpath.trans (evolves_runBlocks h)

theorem evolves_runSlices {fuel : Nat} {w w' : World σ} {r : Except Error Unit}
    (h : runSlices cpu fuel w j = .ok (w', j', r)) :
    Evolves cpu j (Call.runSlices cpu fuel w j) j' := by
  induction fuel generalizing w j with
  | zero => cases h
  | succ fuel ih =>
    unfold runSlices at h
    unfold Call.runSlices
    split at h
    case isTrue hdone =>
      cases h
      rw [if_pos hdone]
      exact .refl _
    case isFalse hdone =>
      obtain ⟨⟨w₁, j₁, r₁⟩, hslice, h⟩ := Interp.bind_eq_ok h
      have hpath := evolves_runSlice hslice
      rw [if_neg hdone, hslice]
      cases r₁ with
      | error e =>
        cases h
        rw [List.append_nil]
        exact hpath
      | ok u =>
        obtain ⟨w₂, hcheck, h⟩ := Interp.bind_eq_ok h
        dsimp only
        rw [hcheck]
        exact hpath.trans (ih h)

theorem evolves_run {cycles : Int32} {w w' : World σ} {r : Except Error Int}
    (h : Jit.run cpu cycles w j = .ok (w', j', r)) :
    Evolves cpu j (Call.run cpu cycles w j) j' := by
  unfold Jit.run at h
  obtain ⟨⟨w₁, j₁, r₁⟩, hslices, h⟩ := Interp.bind_eq_ok h
  have hpath := evolves_runSlices hslices
  cases r₁ <;> cases h <;> exact hpath

theorem evolves_dropCodes (l : List UInt32) (j : Jit) : Evolves cpu j [] (l.foldl dropCode j) := by
  induction l generalizing j with
  | nil => exact .refl _
  | cons x l ih => exact (Change.dropCode j x).evolves.trans (ih _)

/-- Whether a request leaves it to the recompiler which entries to drop. -/
def Request.keepsEntries : Request σ → Bool
  | invalidateRange _ _ => false
  | freeBlocks => false
  | _ => true

theorem evolves_serve {r : Request σ} (hkeep : r.keepsEntries) (h : r.serve cpu j = .ok j') :
    Evolves cpu j (Call.serve cpu j r) j' := by
  cases r with
  | run cycles w =>
    obtain ⟨⟨w', j₁, r⟩, hrun, h⟩ := Interp.bind_eq_ok h
    cases h
    exact evolves_run hrun
  | compile w addr =>
    obtain ⟨⟨j₁, r⟩, hcompile, h⟩ := Interp.bind_eq_ok h
    cases h
    exact (Change.compile hcompile).evolves
  | invalidateRange addr len => cases hkeep
  | invalidateBlocks =>
    cases h
    exact evolves_dropCodes _ j
  | freeBlocks => cases hkeep
  | handleException host =>
    obtain ⟨⟨j₁, hit⟩, hhandle, h⟩ := Interp.bind_eq_ok h
    cases h
    exact (Change.handleException hhandle).evolves

theorem evolves_serveAll {rs : List (Request σ)} (hkeep : ∀ r ∈ rs, r.keepsEntries)
    (h : rs.foldlM (Request.serve cpu) j = .ok j') : Evolves cpu j (Call.serveAll cpu j rs) j' := by
  induction rs generalizing j with
  | nil =>
    cases h
    exact .refl _
  | cons r rs ih =>
    rw [List.foldlM_cons] at h
    obtain ⟨j₁, hr, h⟩ := Interp.bind_eq_ok h
    have hfirst := evolves_serve (hkeep r List.mem_cons_self) hr
    unfold Call.serveAll
    rw [hr]
    exact hfirst.trans (ih (fun r hr => hkeep r (List.mem_cons_of_mem _ hr)) h)

/-! ### What a change does to the setting -/

/-- Compiling the block at an address finds no room for its code. -/
def Overflows (cpu : Cpu σ) (j : Jit) (w : World σ) (addr : UInt32) : Prop :=
  ∃ size f j₁, Prepares cpu w addr j size f j₁ ∧
    (j₁.backend.assemble addr f).2 = .error (.error .overflow)

/-- Compiling the block at an address ends with an error. -/
def Fails (cpu : Cpu σ) (j : Jit) (w : World σ) (addr : UInt32) : Prop :=
  ∃ j' e, j.compile cpu w addr = .ok (j', .error e)

/-- A compilation that drops the entry at `a` and does not put it back. -/
def Call.Forgets (cpu : Cpu σ) (a : UInt32) (c : Call σ) : Prop :=
  c.addr ≠ a ∧ Overflows cpu c.jit c.w c.addr ∨ c.addr = a ∧ Fails cpu c.jit c.w c.addr

theorem fast?_freeBlock (j : Jit) (addr x : UInt32) :
    (j.freeBlock addr).cache.fast? x = if x = addr then none else j.cache.fast? x := by
  rw [← Cache.fast?_remove]
  unfold freeBlock
  split <;> simp_all

theorem fast?_dropCode (j : Jit) (addr x : UInt32) :
    (j.dropCode addr).cache.fast? x = j.cache.fast? x := by
  rw [← j.cache.fast?_invalidate addr x]
  unfold dropCode
  split <;> simp_all

theorem fast?_linkExit (j : Jit) (source : UInt32) (slot : Nat) (dst x : UInt32) :
    (j.linkExit source slot dst).cache.fast? x = j.cache.fast? x := by
  unfold linkExit
  split
  · exact Cache.fast?_link source slot dst x
  · rfl

theorem fast?_slowed {b : Block} (hget : j.cache.get? a = some b) (x : UInt32) :
    (j.slowed a).cache.fast? x = if x = a then some false else j.cache.fast? x := by
  have hmark := j.cache.get?_modify (g := ({ · with fast := false })) (fun _ => rfl) a x
  unfold Cache.fast? slowed
  rw [hmark]
  by_cases hx : x = a
  · rw [if_pos hx, if_pos hx, hx, hget]
    rfl
  · rw [if_neg hx, if_neg hx]

/-- A fault gives direct access to no block. -/
theorem fast?_handleException {host : Nat} {hit : Bool}
    (h : j.handleException host = .ok (j', hit)) (x : UInt32) :
    j'.cache.fast? x = j.cache.fast? x ∨ j'.cache.fast? x = some false := by
  obtain ⟨-, rfl⟩ | ⟨a, b, -, hget, -, -, rfl⟩ := handleException_cases h
  · exact .inl rfl
  · rw [fast?_dropCode, fast?_slowed hget]
    split
    · exact .inr rfl
    · exact .inl rfl

/-- It takes direct access from the block at its host address. -/
theorem fast?_of_fault {host : Nat} (hhost : j.cache.lookupHost host = .ok (some a))
    (h : j.handleException host = .ok (j', true)) : j'.cache.fast? a = some false := by
  obtain ⟨hmiss, -⟩ | ⟨a', b, hfound, hget, -, -, rfl⟩ := handleException_cases h
  · cases hmiss
  · rw [hhost] at hfound
    cases hfound
    rw [fast?_dropCode, fast?_slowed hget, if_pos rfl]

theorem wantsFast_eq (j : Jit) (h : j.cache.fast? a = some false) : j.wantsFast a = false := by
  unfold wantsFast
  unfold Cache.fast? at h
  cases hget : j.cache.get? a with
  | none =>
    rw [hget] at h
    cases h
  | some b =>
    rw [hget] at h
    exact Option.some.inj h

theorem fast?_install {size code : Nat} {exits : List UInt32} {fast : Bool}
    (h : j.install addr size code exits fast = .ok j') (x : UInt32) :
    j'.cache.fast? x = if x = addr then some fast else j.cache.fast? x := by
  obtain ⟨hostAddr, hostSize, hc, -⟩ := install_eq_ok h
  exact Cache.fast?_insert hc x

/-- Assembly leaves the cache alone unless there is no room. -/
theorem cache_assemble {f : Fragment} {r : Except Error Nat}
    (h : j.assemble addr f = .ok (j', r)) :
    j'.cache = j.cache ∨ (j.backend.assemble addr f).2 = .error (.error .overflow) := by
  unfold Jit.assemble at h
  split at h
  case h_1 =>
    cases h
    exact .inl rfl
  case h_2 => cases h
  case h_3 b' hb => exact .inr (congrArg Prod.snd hb)
  case h_4 =>
    cases h
    exact .inl rfl

theorem fast?_compile {w : World σ} {r : Except Error Nat}
    (h : j.compile cpu w addr = .ok (j', r)) (hslow : j.cache.fast? a = some false) :
    j'.cache.fast? a = some false ∨ Call.Forgets cpu a ⟨w, addr, j⟩ := by
  -- The entry survives the first step if it is another one; of the entry itself the setting does.
  have hfreed : addr ≠ a → (j.freeBlock addr).cache.fast? a = some false := fun hne => by
    rw [fast?_freeBlock, if_neg (Ne.symm hne), hslow]
  have hkept {size : Nat} {f : Fragment} {j₁ j₂ : Jit} {r : Except Error Nat}
      (hprepares : Prepares cpu w addr j size f j₁) (hassemble : j₁.assemble addr f = .ok (j₂, r))
      (hne : addr ≠ a) : j₂.cache.fast? a = some false ∨ Call.Forgets cpu a ⟨w, addr, j⟩ := by
    obtain hcache | hfull := cache_assemble hassemble
    · rw [hcache, hprepares.same.1]
      exact .inl (hfreed hne)
    · exact .inr (.inl ⟨hne, size, f, j₁, hprepares, hfull⟩)
  by_cases ha : addr = a
  · cases r with
    | error e => exact .inr (.inr ⟨ha, j', e, h⟩)
    | ok code =>
      obtain _ | _ | ⟨hprepares, hassemble, hinstall⟩ := compile_cases h
      subst ha
      rw [fast?_install hinstall, if_pos rfl, wantsFast_eq j hslow]
      exact .inl rfl
  · cases compile_cases h with
    | unwritten hcache =>
      rw [hcache]
      exact .inl (hfreed ha)
    | refused hprepares hassemble => exact hkept hprepares hassemble ha
    | installed hprepares hassemble hinstall =>
      rw [fast?_install hinstall, if_neg (Ne.symm ha)]
      exact hkept hprepares hassemble ha

theorem Change.slow_or_forgets (h : Change cpu j cs j') (hslow : j.cache.fast? a = some false) :
    j'.cache.fast? a = some false ∨ ∃ c ∈ cs, c.Forgets cpu a := by
  cases h with
  | compile h =>
    exact (fast?_compile h hslow).imp_right fun hc => ⟨_, List.mem_singleton_self _, hc⟩
  | linkExit source slot dst => exact .inl ((fast?_linkExit j source slot dst a).trans hslow)
  | dropCode addr => exact .inl ((fast?_dropCode j addr a).trans hslow)
  | handleException h =>
    obtain hsame | hslow' := fast?_handleException h a
    · exact .inl (hsame.trans hslow)
    · exact .inl hslow'

theorem Evolves.slow_or_forgets (h : Evolves cpu j cs j') (hslow : j.cache.fast? a = some false) :
    j'.cache.fast? a = some false ∨ ∃ c ∈ cs, c.Forgets cpu a := by
  induction h with
  | refl => exact .inl hslow
  | tail _ hchange ih =>
    obtain hslow | ⟨c, hc, hforgets⟩ := ih
    · obtain hslow | ⟨c, hc, hforgets⟩ := hchange.slow_or_forgets hslow
      · exact .inl hslow
      · exact .inr ⟨c, List.mem_append_right _ hc, hforgets⟩
    · exact .inr ⟨c, List.mem_append_left _ hc, hforgets⟩

/-- After a block has faulted, any requests that leave the entries alone find it without direct
access, unless one of the compilations that these requests asked for was of another block and found
no room for its code, or was of the block itself and failed. -/
theorem slow_after_fault {host : Nat} {j₀ : Jit} (hhost : j₀.cache.lookupHost host = .ok (some a))
    (hfault : j₀.handleException host = .ok (j, true)) (rs : List (Request σ))
    (hkeep : ∀ r ∈ rs, r.keepsEntries) (hrs : rs.foldlM (Request.serve cpu) j = .ok j') :
    (∃ b, j'.cache.get? a = some b ∧ b.fast = false) ∨
      ∃ c ∈ Call.serveAll cpu j rs, c.Forgets cpu a := by
  have hslow : j.cache.fast? a = some false := fast?_of_fault hhost hfault
  exact ((evolves_serveAll hkeep hrs).slow_or_forgets hslow).imp_left Option.map_eq_some_iff.mp

/-! ### Register code always has room -/

theorem lowerArg_ne_overflow {f : Fragment} {positions : List (BlockId × Nat)}
    (v : Option ValueId) :
    Interp.Code.lowerArg f positions v ≠ .error (.error .overflow) := by
  intro h
  unfold Interp.Code.lowerArg at h
  cases v with
  | none => cases h
  | some v =>
    unfold Interp.Code.operand at h
    dsimp only at h
    split at h
    case h_4 =>
      split at h <;> cases h
    all_goals cases h

theorem lowerInstr_ne_overflow {f : Fragment} {positions : List (BlockId × Nat)} (i : InstrId) :
    Interp.Code.lowerInstr f positions i ≠ .error (.error .overflow) := by
  intro h
  unfold Interp.Code.lowerInstr at h
  obtain h | ⟨a, -, h⟩ := Interp.bind_eq_error h
  · exact lowerArg_ne_overflow _ h
  obtain h | ⟨b, -, h⟩ := Interp.bind_eq_error h
  · exact lowerArg_ne_overflow _ h
  obtain h | ⟨c, -, h⟩ := Interp.bind_eq_error h
  · exact lowerArg_ne_overflow _ h
  dsimp only at h
  split at h <;> cases h

theorem assemble_ne_overflow (b : Interp.Backend) (f : Fragment) :
    (b.assemble addr f).2 ≠ .error (.error .overflow) := by
  intro h
  unfold Interp.Backend.assemble at h
  split at h
  case h_1 => cases h
  case h_2 e hlower =>
    cases h
    obtain hops | ⟨ops, -, h⟩ := Interp.bind_eq_error hlower
    · obtain ⟨i, -, hi⟩ := Interp.exists_of_mapM_error hops
      exact lowerInstr_ne_overflow i hi
    · cases h

theorem not_overflows {b : Interp.Backend} (h : j.backend = .interp b) (w : World σ) :
    ¬ Overflows cpu j w addr := by
  rintro ⟨size, f, j₁, hprepares, hfull⟩
  rw [hprepares.same.2] at hfull
  obtain hsame | ⟨code, hfreed⟩ := j.backend_freeBlock addr
  · rw [hsame, h] at hfull
    exact assemble_ne_overflow b f hfull
  · rw [hfreed, h] at hfull
    exact assemble_ne_overflow (b.free code) f hfull

/-- A recompiler with direct access that has run two blocks. -/
def warmedUp : Except Fault Jit :=
  [Request.run 60 ⟨Array.replicate 16 0, ()⟩].foldlM (Request.serve forward)
    (ofConfig { fastMem := true } (.interp { offsets := forward.offsets }) {})

/-- Both blocks lose their code and run again. -/
def rerun : List (Request Unit) :=
  [.invalidateBlocks, .run 60 ⟨Array.replicate 16 0, ()⟩, .compile ⟨Array.replicate 16 0, ()⟩ 4]

/-- Whether a compilation is one of register code and, at `a`, one that succeeds. -/
def Call.remembers (cpu : Cpu σ) (a : UInt32) (c : Call σ) : Bool :=
  c.jit.backend.name == "interp" &&
    (c.addr != a || ((c.jit.compile cpu c.w c.addr).toOption.any (·.2.isOk)))

theorem Call.not_forgets {c : Call σ} (h : c.remembers cpu a) : ¬ c.Forgets cpu a := by
  unfold Call.remembers at h
  rw [Bool.and_eq_true] at h
  obtain ⟨hname, hown⟩ := h
  rintro (⟨-, hfull⟩ | ⟨haddr, j', e, hfails⟩)
  · cases hb : c.jit.backend with
    | interp b => exact not_overflows hb c.w hfull
    | x64 b =>
      rw [hb] at hname
      cases hname
  · rw [hfails, haddr] at hown
    simp [Except.toOption, Except.isOk, Except.toBool] at hown

theorem slow_after_fault_rerun : ∃ j₀ j j', warmedUp = .ok j₀ ∧
    j₀.cache.lookupHost 0x7f6000000000 = .ok (some 0) ∧
    j₀.handleException 0x7f6000000000 = .ok (j, true) ∧
    rerun.foldlM (Request.serve forward) j = .ok j' ∧
    ∃ b, j'.cache.get? 0 = some b ∧ b.fast = false := by
  have hrun : (warmedUp.toOption.bind fun j₀ =>
      (j₀.cache.lookupHost 0x7f6000000000).toOption.bind fun found =>
        (j₀.handleException 0x7f6000000000).toOption.bind fun p =>
          (rerun.foldlM (Request.serve forward) p.1).toOption.map fun _ =>
            (found, p.2, (Call.serveAll forward p.1 rerun).all (·.remembers forward 0))) =
      some (some 0, true, true) := by decide +kernel
  obtain ⟨j₀, hj₀, hrun⟩ := Interp.eq_ok_of_toOption_bind hrun
  obtain ⟨found, hhost, hrun⟩ := Interp.eq_ok_of_toOption_bind hrun
  obtain ⟨⟨j, hit⟩, hfault, hrun⟩ := Interp.eq_ok_of_toOption_bind hrun
  obtain ⟨j', hj', hrun⟩ := Interp.eq_ok_of_toOption hrun
  simp only [Prod.mk.injEq] at hrun
  obtain ⟨rfl, rfl, hcalls⟩ := hrun
  rw [List.all_eq_true] at hcalls
  have hslow := slow_after_fault hhost hfault rerun (by decide) hj'
  refine ⟨j₀, j, j', hj₀, hhost, hfault, hj', hslow.resolve_right ?_⟩
  rintro ⟨c, hc, hforgets⟩
  exact Call.not_forgets (hcalls c hc) hforgets

/-- A recompiler with a fast block at `0` and a full code buffer. -/
def crowded : Jit where
  config := { fastMem := true }
  backend := .x64
    { offsets := forward.offsets, buffer := { capacity := 4096, offset := 4096 }
      blocks := #[some { guestAddr := 0, offset := 0, size := 64 }] }
  cache :=
    { blocks := [.fresh 0 4 0 X64.Backend.base.toNat 64 [4] true]
      hosts := [(X64.Backend.base.toNat, 0)] }

/-- The block at `4` is compiled, then the one at `0` again. -/
def recompileBoth : List (Request Unit) :=
  [.compile ⟨Array.replicate 16 0, ()⟩ 4, .compile ⟨Array.replicate 16 0, ()⟩ 0]

/-- For want of room the compilation at `4` drops the entry at `0`, and then the block there gets
direct access back. -/
theorem fast_after_fault_crowded : ∃ j j',
    crowded.cache.lookupHost X64.Backend.base.toNat = .ok (some 0) ∧
    crowded.handleException X64.Backend.base.toNat = .ok (j, true) ∧
    recompileBoth.foldlM (Request.serve forward) j = .ok j' ∧
    ∃ b, j'.cache.get? 0 = some b ∧ b.fast = true := by
  have hrun : ((crowded.handleException X64.Backend.base.toNat).toOption.bind fun p =>
      (recompileBoth.foldlM (Request.serve forward) p.1).toOption.map fun j' =>
        (p.2, j'.cache.fast? 0)) = some (true, some true) := by decide +kernel
  obtain ⟨⟨j, hit⟩, hfault, hrun⟩ := Interp.eq_ok_of_toOption_bind hrun
  obtain ⟨j', hj', hrun⟩ := Interp.eq_ok_of_toOption hrun
  simp only [Prod.mk.injEq] at hrun
  obtain ⟨rfl, hfast⟩ := hrun
  exact ⟨j, j', rfl, hfault, hj', Option.map_eq_some_iff.mp hfast⟩

end Recompiler.Jit
