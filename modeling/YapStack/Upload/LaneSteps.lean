import YapStack.Upload.Queue

set_option linter.unusedSectionVars false

namespace YapStack.Upload

variable {Id Path Hash Tenant : Type} [DecidableEq Id] [DecidableEq Path] [DecidableEq Hash]
variable [DecidableEq Tenant] {lanes : ℕ}

namespace State

variable {s t : State Id Path Hash Tenant lanes}

theorem examine_eq (s : State Id Path Hash Tenant lanes) (r : PartRow Id Path) (busy : Bool) :
    (∃ path, r.file = some path ∧ s.files path = true ∧ busy = false ∧
      s.examine r busy = (enqueue s.queue r.id path r.session .backfill, false)) ∨
    ((s.examine r busy).1 = s.queue ∧
      ((s.examine r busy).2 = false → ∀ path, r.file = some path → s.files path = false)) := by
  cases hr : r.file with
  | none => exact .inr ⟨by simp [examine, hr], by simp⟩
  | some path =>
    by_cases hf : s.files path = true
    · cases busy with
      | true => exact .inr ⟨by simp [examine, hr, hf], by simp [examine, hr, hf]⟩
      | false => exact .inl ⟨path, rfl, hf, rfl, by simp [examine, hr, hf]⟩
    · refine .inr ⟨by simp [examine, hr, hf], fun _ path' hp => ?_⟩
      rw [← Option.some.inj hp]
      exact Bool.eq_false_iff.mpr hf

/-- The walk looks at its next part. -/
theorem examine_ok (h : Inv s) {r : PartRow Id Path} {todo : List (PartRow Id Path)}
    {skipped busy : Bool}
    (hok : skipped = false → ∀ x ∈ s.steady, has s.queue x.1 = true ∨
      ∃ r' ∈ r :: todo, r'.id = x.1 ∧ r'.file = some x.2) :
    Sound { s with queue := (s.examine r busy).1 } ∧
    ((skipped || (s.examine r busy).2) = false → ∀ x ∈ s.steady,
      has (s.examine r busy).1 x.1 = true ∨ ∃ r' ∈ todo, r'.id = x.1 ∧ r'.file = some x.2) := by
  rcases examine_eq s r busy with ⟨path, hpath, hf, -, he⟩ | ⟨hq, hmissing⟩
  · rw [he]
    refine ⟨h.toSound.enqueue r.id path r.session .backfill, fun hs x hx => ?_⟩
    rw [Bool.or_false] at hs
    rcases hok hs x hx with hold | ⟨r', hr', hid, hfile⟩
    · exact .inl (has_enqueue hold)
    · rcases List.mem_cons.mp hr' with rfl | hrest
      · exact .inl (hid ▸ has_enqueue_self)
      · exact .inr ⟨r', hrest, hid, hfile⟩
  · rw [hq]
    refine ⟨h.toSound, fun hs x hx => ?_⟩
    rw [Bool.or_eq_false_iff] at hs
    rcases hok hs.1 x hx with hold | ⟨r', hr', hid, hfile⟩
    · exact .inl hold
    · rcases List.mem_cons.mp hr' with rfl | hrest
      · have hgone := hmissing hs.2 x.2 hfile
        rw [h.steady x hx] at hgone
        cases hgone
      · exact .inr ⟨r', hrest, hid, hfile⟩

theorem mem_present {rows : List (PartRow Id Path)} {x : Id × Path} (hx : x ∈ s.present rows) :
    s.files x.2 = true ∧ ∃ r ∈ rows, r.id = x.1 ∧ r.file = some x.2 := by
  obtain ⟨r, hr, hmap⟩ := List.mem_filterMap.mp hx
  obtain ⟨path, hpath, rfl⟩ := Option.map_eq_some_iff.mp hmap
  obtain ⟨hfile, hf⟩ := Option.filter_eq_some_iff.mp hpath
  exact ⟨hf, r, hr, rfl, hfile⟩

theorem Sound.resetInFlight (h : Sound s) :
    Sound { s with queue := Upload.resetInFlight s.queue } :=
  h.of_map (fun e => by split <;> rfl) (fun p hd => h.done p (isDone_resetInFlight hd))

theorem Sound.retryFailed (h : Sound s) : Sound { s with queue := Upload.retryFailed s.queue } :=
  h.of_map (fun e => by split <;> rfl) (fun p hd => h.done p (isDone_retryFailed hd))

theorem Sound.markFailed (h : Sound s) (p : Id) :
    Sound { s with queue := Upload.markFailed s.queue p } :=
  h.of_map (fun e => by split <;> rfl) (fun p' hd => h.done p' (isDone_markFailed hd))

theorem pcOk_walk {tenant : Tenant} {todo : List (PartRow Id Path)} {skipped : Bool}
    (h : skipped = false → ∀ x ∈ s.steady, has s.queue x.1 = true ∨
      ∃ r ∈ todo, r.id = x.1 ∧ r.file = some x.2) :
    s.PcOk tenant (.parts todo skipped) ∧ s.PcOk tenant (.dictations todo skipped) := by
  cases skipped with
  | true => exact ⟨trivial, trivial⟩
  | false => exact ⟨h rfl, h rfl⟩

/-- The statements of the start and of the walk. -/
theorem walk_inv (h : Inv s) {i : Fin lanes} {tenant : Tenant} {pc : Pc Id Path Hash}
    {a : Act Id Hash} (hl : s.lane i = some ⟨tenant, pc⟩)
    (hpc : pc = .reset ∨ pc = .retry ∨ pc = .walk ∨ (∃ todo skipped, pc = .parts todo skipped) ∨
      ∃ todo skipped, pc = .dictations todo skipped)
    (ht : s.laneStep i tenant pc a = some t) : Inv t := by
  obtain ⟨hbound, hok⟩ := h.lane i _ hl
  have hwalk : ∀ todo skipped, (pc = .parts todo skipped ∨ pc = .dictations todo skipped) →
      skipped = false → ∀ x ∈ s.steady,
      has s.queue x.1 = true ∨ ∃ r ∈ todo, r.id = x.1 ∧ r.file = some x.2 := by
    rintro todo skipped (rfl | rfl) rfl <;> exact hok
  rcases hpc with rfl | rfl | rfl | ⟨todo, skipped, rfl⟩ | ⟨todo, skipped, rfl⟩
  · cases a <;> cases ht
    rename_i busy
    refine h.goto hl ?_ rfl rfl trivial
    cases busy
    · exact h.toSound.resetInFlight
    · exact h.toSound
  · cases a <;> cases ht
    rename_i busy
    refine h.goto hl ?_ rfl rfl trivial
    cases busy
    · exact h.toSound.retryFailed
    · exact h.toSound
  · cases a <;> cases ht
    · refine h.goto hl ⟨h.unique, h.done, h.covered, fun x hx => (mem_present hx).1⟩ rfl rfl ?_
      exact fun x hx => .inr (mem_present hx).2
    · exact h.goto hl h.toSound rfl rfl trivial
  · cases todo with
    | nil =>
      cases a <;> cases ht
      · refine h.goto hl ⟨h.unique, h.done, h.covered, fun x hx => ?_⟩ rfl rfl ?_
        · rcases List.mem_append.mp hx with hold | hnew
          · exact h.steady x hold
          · exact (mem_present hnew).1
        · cases skipped with
          | true => trivial
          | false =>
            intro x hx
            rcases List.mem_append.mp hx with hold | hnew
            · rcases hwalk [] false (.inl rfl) rfl x hold with hq | ⟨r, hr, -⟩
              · exact .inl hq
              · cases hr
            · exact .inr (mem_present hnew).2
      · exact h.goto hl h.toSound rfl rfl trivial
    | cons r todo =>
      cases a <;> cases ht
      · obtain ⟨hs, hnext⟩ := examine_ok h (hwalk _ _ (.inl rfl))
        exact h.goto hl hs rfl rfl (pcOk_walk hnext).1
      · exact h.goto hl h.toSound rfl rfl trivial
  · cases todo with
    | nil =>
      cases a
      case finishWalk busy =>
        simp only [laneStep] at ht
        split at ht
        · cases ht
          exact h.goto hl h.toSound rfl rfl trivial
        · rename_i hdone
          cases ht
          rw [Bool.or_eq_true, not_or] at hdone
          have hall := hwalk [] skipped (.inr rfl) (Bool.eq_false_iff.mpr hdone.1)
          refine h.goto hl ⟨h.unique, h.done, fun p hp hrow => ?_, h.steady⟩ rfl rfl trivial
          rcases List.mem_append.mp hp with hold | hnew
          · exact h.covered p hold hrow
          · obtain ⟨x, hx, rfl⟩ := List.mem_map.mp hnew
            rcases hall x hx with hq | ⟨r, hr, -⟩
            · exact hq
            · cases hr
      case abandonWalk =>
        cases ht
        exact h.goto hl h.toSound rfl rfl trivial
      all_goals cases ht
    | cons r todo =>
      cases a <;> cases ht
      · obtain ⟨hs, hnext⟩ := examine_ok h (hwalk _ _ (.inr rfl))
        exact h.goto hl hs rfl rfl (pcOk_walk hnext).2
      · exact h.goto hl h.toSound rfl rfl trivial

/-- The statements of `drain_one` and `upload_entry`. -/
theorem drain_inv (h : Inv s) {i : Fin lanes} {tenant : Tenant} {pc : Pc Id Path Hash}
    {a : Act Id Hash} {e : QueueEntry Id Path} (hl : s.lane i = some ⟨tenant, pc⟩)
    (hpc : pc = .picked e ∨ pc = .dropping e ∨ pc = .upload e ∨ pc = .sealing e ∨
      (∃ sha256, pc = .presign e sha256) ∨ (∃ sha256, pc = .put e sha256) ∨ pc = .uploaded e ∨
      pc = .failing e)
    (ht : s.laneStep i tenant pc a = some t) : Inv t := by
  obtain ⟨hbound, hok⟩ := h.lane i _ hl
  have hnotDone : ∀ {state}, state ≠ .done → ¬ isDone s.queue e.part →
      ¬ isDone (setState s.queue e.part state) e.part := by
    rintro state hs hnot hd
    rcases isDone_setState hd with hold | ⟨-, rfl⟩
    · exact hnot hold
    · exact hs rfl
  rcases hpc with rfl | rfl | rfl | rfl | ⟨sha256, rfl⟩ | ⟨sha256, rfl⟩ | rfl | rfl
  · cases a <;> cases ht
    · refine h.goto hl h.toSound rfl rfl ?_
      cases hrow : s.partSourceExists e.part
      · exact hrow
      · exact hok
    · exact h.goto hl h.toSound rfl rfl trivial
  · cases a <;> cases ht
    · exact h.goto hl (h.toSound.deleteEntry hok) rfl rfl trivial
    · exact h.goto hl h.toSound rfl rfl trivial
  · cases a
    case setSealing busy =>
      cases busy <;> cases ht
      · exact h.goto hl (h.toSound.setState e.part .sealing (fun hs => by cases hs)) rfl rfl
          (hnotDone (fun hs => by cases hs) hok)
      · exact h.goto hl h.toSound rfl rfl hok
    all_goals cases ht
  · cases a
    case sealBlob sha256 =>
      cases sha256 with
      | none =>
        cases ht
        exact h.goto hl h.toSound rfl rfl hok
      | some sha256 =>
        simp only [laneStep, Option.ite_none_right_eq_some, Option.some.injEq] at ht
        obtain ⟨-, rfl⟩ := ht
        exact h.goto hl (h.toSound.setState e.part .uploading (fun hs => by cases hs)) rfl rfl
          (hnotDone (fun hs => by cases hs) hok)
    all_goals cases ht
  · cases a
    case presignAudio reached answered =>
      cases reached with
      | false =>
        cases ht
        exact h.goto hl h.toSound rfl rfl hok
      | true =>
        have hs := h.toSound.presign tenant hok sha256
        cases answered with
        | false =>
          cases ht
          exact h.goto hl hs rfl rfl hok
        | true =>
          cases ht
          refine h.goto hl hs rfl rfl ?_
          cases hstored : s.stored tenant sha256
          · exact ⟨hok, by simp⟩
          · exact ⟨hok, by simp [holdsAudio, hstored]⟩
    all_goals cases ht
  · cases a
    case putAudio reached answered =>
      obtain ⟨hnot, hobj⟩ := hok
      cases reached with
      | false =>
        cases ht
        exact h.goto hl h.toSound rfl rfl hnot
      | true =>
        have hs := h.toSound.put tenant sha256
        cases answered with
        | false =>
          cases ht
          exact h.goto hl hs rfl rfl hnot
        | true =>
          cases ht
          refine h.goto hl hs rfl rfl ⟨hnot, ?_⟩
          simp only at hobj
          simp [holdsAudio, hobj]
    all_goals cases ht
  · cases a <;> cases ht
    · obtain ⟨hnot, hheld⟩ := hok
      exact h.goto hl (h.toSound.setState e.part .done (fun _ => ⟨tenant, hbound, hheld⟩)) rfl rfl
        trivial
    · exact h.goto hl h.toSound rfl rfl trivial
  · cases a <;> cases ht
    · exact h.goto hl (h.toSound.markFailed e.part) rfl rfl trivial
    · exact h.goto hl h.toSound rfl rfl trivial

theorem laneStep_inv (h : Inv s) {i : Fin lanes} {tenant : Tenant} {pc : Pc Id Path Hash}
    {a : Act Id Hash} (hl : s.lane i = some ⟨tenant, pc⟩)
    (ht : s.laneStep i tenant pc a = some t) : Inv t := by
  cases pc with
  | reset => exact walk_inv h hl (.inl rfl) ht
  | retry => exact walk_inv h hl (.inr (.inl rfl)) ht
  | walk => exact walk_inv h hl (.inr (.inr (.inl rfl))) ht
  | parts todo skipped => exact walk_inv h hl (.inr (.inr (.inr (.inl ⟨_, _, rfl⟩)))) ht
  | dictations todo skipped => exact walk_inv h hl (.inr (.inr (.inr (.inr ⟨_, _, rfl⟩)))) ht
  | ready =>
    cases a
    case nextReady p =>
      obtain ⟨e, he, rfl⟩ := Option.map_eq_some_iff.mp ht
      obtain ⟨hmem, hpending⟩ := nextReady_pending he
      refine h.goto hl h.toSound rfl rfl ?_
      rintro ⟨e', he', hp, hs⟩
      rw [h.unique e' he' e hmem hp, hpending] at hs
      cases hs
    all_goals cases ht
  | picked e => exact drain_inv h hl (.inl rfl) ht
  | dropping e => exact drain_inv h hl (.inr (.inl rfl)) ht
  | upload e => exact drain_inv h hl (.inr (.inr (.inl rfl))) ht
  | sealing e => exact drain_inv h hl (.inr (.inr (.inr (.inl rfl)))) ht
  | presign e sha256 => exact drain_inv h hl (.inr (.inr (.inr (.inr (.inl ⟨_, rfl⟩))))) ht
  | put e sha256 => exact drain_inv h hl (.inr (.inr (.inr (.inr (.inr (.inl ⟨_, rfl⟩)))))) ht
  | uploaded e =>
    exact drain_inv h hl (.inr (.inr (.inr (.inr (.inr (.inr (.inl rfl))))))) ht
  | failing e => exact drain_inv h hl (.inr (.inr (.inr (.inr (.inr (.inr (.inr rfl))))))) ht

end State

end YapStack.Upload
