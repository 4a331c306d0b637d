import Recompiler.Proofs.IR.Recording
import Recompiler.Proofs.Pass.Replacement
import Recompiler.Proofs.Pass.StoreRemoval

/-!
Reuse of context loads and removal of covered stores keep the meaning of a fragment: the calls, the
contexts that they find, and the world at the exit. The context may differ in between.
-/
namespace Recompiler.Meaning

open IR Interp

variable {σ : Type} {g : Guest σ} {o : Offsets} {f : Fragment}

/-- From the world `w`, one fragment ends if the other does, and they end alike; and whether they
end or not, they make the same calls, on the same contexts. -/
structure SameConduct (g : Guest σ) (o : Offsets) (f f' : Fragment) (w : World σ) : Prop where
  forth : ∀ r, Evaluates g o f w r → ∃ r', Evaluates g o f' w r' ∧ SameResult o f f' r r'
  back : ∀ r', Evaluates g o f' w r' → ∃ r, Evaluates g o f w r ∧ SameResult o f f' r r'
  calls : ∀ calls, Makes g o f w calls ↔ Makes g o f' w calls

theorem SameResult.statics {f' f'' : Fragment} {r r' : Result σ} (h : SameResult o f f' r r')
    (hstatics : Exit.statics f'' = Exit.statics f') : SameResult o f f'' r r' := by
  cases h with
  | fault e => exact .fault e
  | dynamic w => exact .dynamic w
  | «static» w h h' => exact .static w h (hstatics ▸ h')
  | resolved w h' => exact .resolved w (hstatics ▸ h')

/-- Accesses at constant offsets are looked at once. -/
theorem contained_of_offsets (hf : WellFormed f) {n : Nat}
    (h : ∀ i ∈ f.allInstrs, (f.instr i).op.isAccess = true → ∃ a x, (f.instr i).arg 0 = some a ∧
      (f.value a).origin = .constant (.i32 x) ∧
        x.toInt32.toInt + (opTy f (f.instr i)).bytes ≤ n ∧
        Clear x.toInt32.toInt (opTy f (f.instr i)).bytes o.cycles ∧
        Clear x.toInt32.toInt (opTy f (f.instr i)).bytes o.instrs) : Contained g o n f := by
  intro i code blocks s m hr haccess _
  obtain ⟨a, x, ha, hx, hbounds⟩ := h i (hr.mem_allInstrs hf) haccess
  have hat : accessAt f s i = x.toInt32.toInt := by
    have hbits : bits f cells s a = x.toUInt64 := by
      unfold bits
      rw [hx]
      rfl
    rw [accessAt, argBits, ha]
    dsimp only
    rw [hbits, UInt32.toUInt32_toUInt64]
  rw [hat]
  exact hbounds

end Recompiler.Meaning

namespace Recompiler.Pass.ContextReuse

open IR Fragment Interp Meaning Machine

variable {f f' : Fragment} {ρ : ValueId → ValueId} {gone done : List InstrId} {σ : Type}
  {g : Guest σ} {o : Offsets} {n : Nat} {w : World σ}

theorem Reuses.sameMeaningFrom (h : Reuses f done f' ρ gone) (hf : WellFormed f) (ho : Ordered f)
    (ht : Typed f) (hg : g.Apart) (hc : Contained g o n f) (hw : w.ctx.size = n) :
    SameMeaningFrom g o f f' w :=
  h.rewrites.sameMeaningFrom hf ho (ht.targets hf) reached_preserved
    (justified_same h.values (h.justified σ g o n hg hc)) (.start hw)

theorem Sized.recording (h : Sized g o f w) : Sized g.recording o f w.fresh :=
  fun n hr => h n (evaluates_recording hr)

theorem Sized.transfer (h : Sized g o f w) (hsame : SameMeaningFrom g o f f' w) :
    Sized g o f' w := by
  intro n hr
  obtain ⟨r, hr, hres⟩ := hsame.back _ hr
  cases hres
  exact h n hr

/-- The pass ends for every fragment that was built by the rules, defines its results first and
leaves room behind constant offsets. What is left makes the same calls on the same contexts and ends
alike, if host memory lies apart from the context, accesses stay in the context and off the
counters, and none of a size is run that no field has. -/
theorem run_keeps_meaning (hf : WellFormed f) (hu : f.UseLists) (ho : Ordered f) (ht : Typed f)
    (hfit : OffsetsFit f) :
    ∃ f' loads stores, run f = .ok (f', loads, stores) ∧
      ∀ {σ : Type} (g : Guest σ) (o : Offsets) (n : Nat), g.Apart → Contained g o n f →
        ∀ w : World σ, w.ctx.size = n → Sized g o f w → SameConduct g o f f' w := by
  obtain ⟨s₁, ρ, gone₁, done, hs₁, hreuse⟩ := loads_reuses hf ho ht hfit hu
  have htrims := hreuse.trims
  have hf₁ := htrims.wellFormed hf
  have ho₁ := htrims.ordered hf ho
  have ht₁ := htrims.typed hf ho ht
  obtain ⟨s₂, gone₂, hs₂, hdrops, hgone⟩ := stores_trims hf₁ ho₁ ht₁
    (hreuse.endsFit hf ho hfit) htrims.uses
  refine ⟨s₂.fragment, s₁.removed, s₂.removed, ?_, ?_⟩
  · unfold run
    rw [hs₁]
    simp only [bind, Except.bind, hs₂]
    rfl
  · intro σ g o n hg hc w hw hsized
    have hstatics := statics_trims hdrops
    have hsame := hreuse.sameMeaningFrom hf ho ht hg hc hw
    obtain ⟨hresult, -⟩ := stores_meaning hdrops hf₁ ht₁ hgone hg (hreuse.contained hf ho ht hg hc)
      hw (hsized.transfer hsame)
    -- the same for the guest that writes its calls down
    have hg' := apart_recording hg
    have hc' := contained_recording hc
    have hsame' := hreuse.sameMeaningFrom hf ho ht hg' hc' (w := w.fresh) hw
    obtain ⟨-, hrest⟩ := stores_meaning hdrops hf₁ ht₁ hgone hg'
      (hreuse.contained hf ho ht hg' hc') (w := w.fresh) hw (hsized.recording.transfer hsame')
    refine ⟨fun r hr => ?_, fun r' hr' => ?_, fun calls => ?_⟩
    · obtain ⟨r', hr', hres⟩ := hsame.forth r hr
      exact ⟨r', (hresult r').mp hr', hres.statics hstatics⟩
    · obtain ⟨r, hr, hres⟩ := hsame.back r' ((hresult r').mpr hr')
      exact ⟨r, hr, hres.statics hstatics⟩
    · have hworlds : (∃ w', Passes g.recording o f w.fresh w' ∧ w'.rest.2 = calls) ↔
          ∃ w', Passes g.recording o s₁.fragment w.fresh w' ∧ w'.rest.2 = calls :=
        exists_congr fun w' => and_congr_left fun _ => hsame'.worlds w'
      refine hworlds.trans ⟨?_, ?_⟩
      · rintro ⟨w', hpass, rfl⟩
        obtain ⟨w'', hpass', e⟩ := (hrest w'.rest).mp ⟨w', hpass, rfl⟩
        exact ⟨w'', hpass', by rw [e]⟩
      · rintro ⟨w', hpass, rfl⟩
        obtain ⟨w'', hpass', e⟩ := (hrest w'.rest).mpr ⟨w', hpass, rfl⟩
        exact ⟨w'', hpass', by rw [e]⟩

/-- Small constants leave room behind them. -/
theorem offsetsFit_of_values (h : ∀ v ∈ f.values, ∀ x, v.origin = .constant (.i32 x) →
    x.toInt32.toInt + 16 < 2 ^ 31) : OffsetsFit f := by
  intro i _ _ _ _ v x hx _
  have hbytes : (opTy f (f.instr i)).bytes ≤ 16 := by
    cases opTy f (f.instr i) <;> decide
  rcases f.value_mem v with hv | hv
  · have := h _ hv x hx
    omega
  · rw [hv] at hx
    cases hx

/-! ### A store, a store over it, and a load -/

/-- Two stores to one word, which is the address that control leaves for. -/
def relay : Fragment where
  values := #[{ ty := .i32, origin := .constant (.i32 16), uses := [⟨⟨0⟩, 0⟩, ⟨⟨1⟩, 0⟩, ⟨⟨2⟩, 0⟩] },
    { ty := .i32, origin := .constant (.i32 0x100), uses := [⟨⟨0⟩, 1⟩] },
    { ty := .i32, origin := .constant (.i32 0x120), uses := [⟨⟨1⟩, 1⟩] },
    { ty := .i32, origin := .result ⟨2⟩, uses := [⟨⟨3⟩, 0⟩] }]
  instrs := #[
    { op := .storeContext, args := slots (some ⟨0⟩) (some ⟨1⟩), block := ⟨0⟩, next := some ⟨1⟩ },
    { op := .storeContext, args := slots (some ⟨0⟩) (some ⟨2⟩), block := ⟨0⟩, prev := some ⟨0⟩,
      next := some ⟨2⟩ },
    { op := .loadContext, args := slots (some ⟨0⟩), result := some ⟨3⟩, block := ⟨0⟩,
      prev := some ⟨1⟩, next := some ⟨3⟩ },
    { op := .branch, args := slots (some ⟨3⟩), block := ⟨0⟩, prev := some ⟨2⟩ }]
  blocks := #[{ head := some ⟨0⟩, tail := some ⟨3⟩ }]
  order := [⟨0⟩]

/-- One store and the address are left. -/
def relayReused : Fragment where
  values := #[{ ty := .i32, origin := .constant (.i32 16), uses := [⟨⟨1⟩, 0⟩] },
    { ty := .i32, origin := .constant (.i32 0x100) },
    { ty := .i32, origin := .constant (.i32 0x120), uses := [⟨⟨1⟩, 1⟩, ⟨⟨3⟩, 0⟩] },
    { ty := .i32, origin := .result ⟨2⟩ }]
  instrs := #[
    { op := .storeContext, args := slots none, block := ⟨0⟩, removed := true },
    { op := .storeContext, args := slots (some ⟨0⟩) (some ⟨2⟩), block := ⟨0⟩, next := some ⟨3⟩ },
    { op := .loadContext, args := slots none, result := some ⟨3⟩, block := ⟨0⟩, removed := true },
    { op := .branch, args := slots (some ⟨2⟩), block := ⟨0⟩, prev := some ⟨1⟩ }]
  blocks := #[{ head := some ⟨1⟩, tail := some ⟨3⟩ }]
  order := [⟨0⟩]

theorem relay_run : run relay = .ok (relayReused, 1, 1) := by rfl

theorem relay_wellFormed : WellFormed relay := by decide

theorem relay_uses : relay.UseLists := Fragment.useLists_of_numbers (by decide) (by decide)

theorem relay_ordered : Ordered relay := ordered_of_single rfl (by decide)

theorem relay_typed : Typed relay := by decide

theorem relay_offsetsFit : OffsetsFit relay := offsetsFit_of_values (by simp [relay])

theorem mute_apart : mute.Apart where
  readHost_ctx _ _ _ _ _ := rfl
  readHost_lt _ w _ := Nat.pow_pos (by decide)
  writeHost_ctx _ _ _ _ := rfl
  writeHost_rest _ _ _ _ _ _ := rfl
  read_size _ _ _ := rfl
  write_size _ _ _ _ := rfl
  fallback_size _ _ _ _ _ h := by
    cases h
    rfl
  call_size _ _ _ _ := rfl

theorem relay_contained : Contained mute default 20 relay := by
  refine contained_of_offsets relay_wellFormed ?_
  have hall : ∀ i ∈ relay.allInstrs, (relay.instr i).op.isAccess = true →
      (relay.instr i).arg 0 = some ⟨0⟩ ∧ opTy relay (relay.instr i) = .i32 := by decide
  intro i hi haccess
  obtain ⟨harg, hty⟩ := hall i hi haccess
  rw [hty]
  exact ⟨⟨0⟩, 16, harg, rfl, by decide, by decide, by decide⟩

/-- A context of five words. -/
def room : World Unit := ⟨Array.replicate 20 0, ()⟩

/-- The context at the exit of the relay. -/
def roomLeft : World Unit :=
  ⟨#[0x20, 1, 0, 0, 0, 0, 0, 0, 0, 0, 0, 0, 0, 0, 0, 0, 0x20, 1, 0, 0], ()⟩

theorem relay_evaluates : Evaluates mute default relay room (.ok (.dynamic, roomLeft)) :=
  ⟨4, .go rfl (.go rfl (.go rfl (.go rfl (.stop rfl))))⟩

theorem relayReused_evaluates :
    Evaluates mute default relayReused room (.ok (.static 0, roomLeft)) :=
  ⟨2, .go rfl (.go rfl (.stop rfl))⟩

theorem relay_sized : Sized mute default relay room := by
  intro n hn
  cases Ends.unique hn relay_evaluates

/-- The pass over the relay takes a load and a store out, and what is left conducts itself alike. -/
theorem run_keeps_relay :
    (WellFormed relay ∧ relay.UseLists ∧ Ordered relay ∧ Typed relay ∧ OffsetsFit relay) ∧
      (mute.Apart ∧ Contained mute default 20 relay ∧ Sized mute default relay room) ∧
        ∃ f' loads stores, run relay = .ok (f', loads, stores) ∧
          SameConduct mute default relay f' room := by
  refine ⟨⟨relay_wellFormed, relay_uses, relay_ordered, relay_typed, relay_offsetsFit⟩,
    ⟨mute_apart, relay_contained, relay_sized⟩, ?_⟩
  obtain ⟨f', loads, stores, hrun, hsame⟩ :=
    run_keeps_meaning relay_wellFormed relay_uses relay_ordered relay_typed relay_offsetsFit
  exact ⟨f', loads, stores, hrun,
    hsame mute default 20 mute_apart relay_contained room rfl relay_sized⟩

/-! ### An offset that is stored first -/

/-- An address is loaded that was stored just before; behind the branch stands an access there. -/
def detour : Fragment where
  values := #[{ ty := .i32, origin := .constant (.i32 16), uses := [⟨⟨0⟩, 0⟩, ⟨⟨1⟩, 0⟩] },
    { ty := .i32, origin := .constant (.i32 0x7fffffff), uses := [⟨⟨0⟩, 1⟩] },
    { ty := .i32, origin := .result ⟨1⟩, uses := [⟨⟨3⟩, 0⟩] },
    { ty := .i32, origin := .constant (.i32 0x100), uses := [⟨⟨2⟩, 0⟩] },
    { ty := .i8, origin := .result ⟨3⟩ }]
  instrs := #[
    { op := .storeContext, args := slots (some ⟨0⟩) (some ⟨1⟩), block := ⟨0⟩, next := some ⟨1⟩ },
    { op := .loadContext, args := slots (some ⟨0⟩), result := some ⟨2⟩, block := ⟨0⟩,
      prev := some ⟨0⟩, next := some ⟨2⟩ },
    { op := .branch, args := slots (some ⟨3⟩), block := ⟨0⟩, prev := some ⟨1⟩, next := some ⟨3⟩ },
    { op := .loadContext, args := slots (some ⟨2⟩), result := some ⟨4⟩, block := ⟨0⟩,
      prev := some ⟨2⟩ }]
  blocks := #[{ head := some ⟨0⟩, tail := some ⟨3⟩ }]
  order := [⟨0⟩]

/-- The address becomes the offset of the access, which is not run and has no room there. -/
theorem detour_run : run detour = .error .overflow := by rfl

theorem detour_code : detour.blockInstrs ⟨0⟩ = [⟨0⟩, ⟨1⟩, ⟨2⟩, ⟨3⟩] := by decide

theorem detour_wellFormed : WellFormed detour := by decide

theorem detour_uses : detour.UseLists := Fragment.useLists_of_numbers (by decide) (by decide)

theorem detour_ordered : Ordered detour := ordered_of_single rfl (by decide)

theorem detour_typed : Typed detour := by decide

/-- Nothing runs behind the branch. -/
theorem detour_path {seen : List InstrId} {p : Point} (h : Path detour seen p) :
    p ∈ [⟨[], [⟨0⟩]⟩, ⟨[⟨0⟩, ⟨1⟩, ⟨2⟩, ⟨3⟩], []⟩, ⟨[⟨1⟩, ⟨2⟩, ⟨3⟩], []⟩,
      (⟨[⟨2⟩, ⟨3⟩], []⟩ : Point)] := by
  simp only [List.mem_cons, List.not_mem_nil, or_false]
  induction h with
  | start => exact .inl rfl
  | enter _ ih =>
    rcases ih with e | e | e | e <;> cases e
    rw [detour_code]
    exact .inr (.inl rfl)
  | pass _ hop ih =>
    rcases ih with e | e | e | e <;> cases e
    · exact .inr (.inr (.inl rfl))
    · exact .inr (.inr (.inr rfl))
    · exact absurd rfl hop
  | jump _ htarget hv ih =>
    rcases ih with e | e | e | e <;> cases e
    · cases htarget
    · cases htarget
    · cases htarget
      cases hv

theorem detour_contained : Contained mute default 20 detour := by
  intro i code blocks s m hr haccess _
  have hat : i = ⟨0⟩ ∨ i = ⟨1⟩ → accessAt detour s i = 16 ∧
      opTy detour (detour.instr i) = .i32 := by
    rintro (rfl | rfl) <;> exact ⟨rfl, rfl⟩
  obtain ⟨seen, hpath⟩ := hr.path
  have hpoint := detour_path hpath
  simp only [List.mem_cons, List.not_mem_nil, or_false] at hpoint
  rcases hpoint with e | e | e | e <;> cases e
  · rw [(hat (.inl rfl)).1, (hat (.inl rfl)).2]
    exact ⟨by decide, by decide, by decide⟩
  · rw [(hat (.inr rfl)).1, (hat (.inr rfl)).2]
    exact ⟨by decide, by decide, by decide⟩
  · cases haccess

theorem detour_endsFit : EndsFit detour := by
  have hcode : detour.allInstrs = [⟨0⟩, ⟨1⟩, ⟨2⟩, ⟨3⟩] := by decide
  intro i hi haccess d hd
  rw [hcode] at hi
  simp only [List.mem_cons, List.not_mem_nil, or_false] at hi
  rcases hi with rfl | rfl | rfl | rfl
  · cases hd
    decide
  · cases hd
    decide
  · cases haccess
  · cases hd

/-- The exit does not stay the same: where the address was loaded, it becomes a static exit. Nor
does room behind the offsets that are constant before the pass do: one may become constant. -/
theorem exit_becomes_static :
    (¬∀ f : Fragment, WellFormed f → f.UseLists → Ordered f → Typed f → OffsetsFit f →
      ∀ f' loads stores, run f = .ok (f', loads, stores) →
        ∀ (g : Guest Unit) (o : Offsets) (n : Nat), g.Apart → Contained g o n f →
          ∀ w : World Unit, w.ctx.size = n → Sized g o f w → ∀ exit w',
            Evaluates g o f w (.ok (exit, w')) → Evaluates g o f' w (.ok (exit, w'))) ∧
    ¬∀ f : Fragment, WellFormed f → f.UseLists → Ordered f → Typed f → EndsFit f →
      Contained mute default 20 f → ∃ r, run f = .ok r := by
  refine ⟨fun h => ?_, fun h => ?_⟩
  · have hdynamic := h relay relay_wellFormed relay_uses relay_ordered relay_typed
      relay_offsetsFit relayReused 1 1 relay_run mute default 20 mute_apart relay_contained room rfl
      relay_sized .dynamic _ relay_evaluates
    cases Ends.unique hdynamic relayReused_evaluates
  · obtain ⟨r, hr⟩ := h detour detour_wellFormed detour_uses detour_ordered detour_typed
      detour_endsFit detour_contained
    cases detour_run.symm.trans hr

end Recompiler.Pass.ContextReuse
