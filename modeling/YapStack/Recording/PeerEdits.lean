import YapStack.Recording.PeerColumns

set_option linter.unusedSectionVars false

namespace YapStack.Recording.Peers

open YapStack.Sync.Crr

variable {Key : Type} [DecidableEq Key] {n : ℕ}
variable {rows : Fin n → SessionRow} {history : Column → List (Write n)}
variable {sent : Change Key Column Value → Prop}

/-- The writes of an edit. -/
def noted (d : Fin n) (e : Edit) (row : SessionRow) (history : Column → List (Write n)) :
    Column → List (Write n) := fun col =>
  history col ++ ((e.writes row col).map (fun c => ⟨d, c.value, c.version.getD 0⟩)).toList

section Edits

variable {d : Fin n} {cells : Column → Cell Value}

theorem set_advances (value : Column → Option Value) (hc : (rows d).cells = some cells)
    (hlast : ∀ col x, value col = some x → (cells col).version = some (history col).length)
    (col : Column) :
    Linear.Advances history (noted d (.set value) (rows d) history) d cells
      (setCells value cells) col := by
  cases hx : value col with
  | none => exact .inl ⟨by simp [setCells, hx], by simp [noted, Edit.writes, hc, hx]⟩
  | some x =>
    by_cases hsame : (cells col).value = x
    · exact .inl ⟨by simp [setCells, hx, Cell.updated, hsame],
        by simp [noted, Edit.writes, hc, hx, hsame]⟩
    · have hv := hlast col x hx
      refine .inr ⟨x, hv, ?_, ?_⟩
      · simp [setCells, hx, Cell.updated, hsame, hv]
      · simp [noted, Edit.writes, hc, hx, hsame, Cell.updated, hv]

theorem set_apply {value : Column → Option Value} (hc : (rows d).cells = some cells) :
    (Edit.set value).apply (rows d) = ⟨(rows d).cl, some (setCells value cells)⟩ := by
  simp [Edit.apply, hc]

theorem updated_value (c : Cell Value) (x : Value) : (c.updated x).value = x := by
  unfold Cell.updated
  split
  · assumption
  · rfl

/-- A device completes the session that it recorded last. -/
theorem Linear.completed (h : Linear rows history sent) (hc : (rows d).cells = some cells)
    (hlast : (cells .status).version = some (history .status).length)
    (hauthor : ∀ w ∈ history .status, w.version = (history .status).length → w.device = d) :
    Linear (Function.update rows d (Device.completedEdit.apply (rows d)))
      (noted d Device.completedEdit (rows d) history) sent := by
  have hadv := set_advances Device.completedValues hc (fun col x hx => by
    cases col with
    | status => exact hlast
    | owner => cases hx)
  rw [Device.completedEdit, set_apply hc]
  refine h.advance hc hadv (fun w hw hv _ => hauthor w hw hv) (fun w hw hnew => ?_)
  simp [noted, Edit.writes, hc, Device.completedValues] at hw
  exact absurd hw hnew

theorem Linear.resumed (h : Linear rows history sent) (hup : UpToDate rows history d cells)
    (hdone : (cells .status).value = .completed) :
    Linear (Function.update rows d ((Device.recordingEdit d).apply (rows d)))
      (noted d (Device.recordingEdit d) (rows d) history) sent ∧
    Recorder (Function.update rows d ((Device.recordingEdit d).apply (rows d)))
      (noted d (Device.recordingEdit d) (rows d) history) d
      (setCells (Device.recordingValues d) cells) := by
  have hadv := set_advances (Device.recordingValues d) hup.has
    (fun col _ _ => hup.last col)
  have hfresh : ∀ w ∈ history .status, w.version = (history .status).length →
      w.value = .recording → w.device = d := by
    intro w hw hv hrec
    have hk := h.known d cells hup.has .status
    simp only [Known, hup.last] at hk
    obtain ⟨w', hw', hv', hval⟩ := hk
    rw [h.version_unique hw hw' (hv.trans hv'.symm), hval, hdone] at hrec
    cases hrec
  have hstatus : noted d (.set (Device.recordingValues d)) (rows d) history .status =
      history .status ++ [⟨d, .recording, (history .status).length + 1⟩] := by
    simp [noted, Edit.writes, hup.has, hdone, Cell.updated, hup.last, Device.recordingValues]
  rw [Device.recordingEdit, set_apply hup.has]
  refine ⟨h.advance hup.has hadv hfresh (fun w hw hnew => ⟨?_, ?_⟩),
    ⟨⟨fun e => ?_, ?_, ?_⟩, ?_, ?_, ?_⟩⟩
  · rcases hadv .owner with ⟨-, hh⟩ | ⟨x, -, hcell, hh⟩
    · exact absurd (hh ▸ hw) hnew
    · rw [hh, List.mem_append, List.mem_singleton] at hw
      rcases hw with hw | rfl
      · exact absurd hw hnew
      · exact (congrArg Cell.value hcell).symm.trans (updated_value _ _)
  · rw [hstatus]
    exact ⟨_, List.mem_append_right _ (List.mem_singleton_self _), rfl⟩
  · have halive := hup.alive e
    by_cases he : e = d
    · subst he
      simpa only [Function.update_self] using halive
    · simpa only [Function.update_of_ne he] using halive
  · rw [Function.update_self]
  · intro col
    rcases hadv col with ⟨hcell, hh⟩ | ⟨x, -, hcell, hh⟩
    · rw [hcell, hh]
      exact hup.last col
    · rw [hcell, hh, List.length_append]
      rfl
  · exact updated_value _ _
  · exact updated_value _ _
  · intro w hw hv
    rw [hstatus, List.length_append, List.length_singleton] at hv
    rw [hstatus, List.mem_append, List.mem_singleton] at hw
    rcases hw with hw | rfl
    · have := (h.version_bounds hw).2
      omega
    · rfl

theorem Linear.exists_last (h : Linear rows history sent) (hone : (rows d).cl = 1) :
    ∃ w ∈ history .status, w.version = (history .status).length := by
  have hpos := List.length_pos_iff.mpr (h.born d (by omega) .status)
  exact h.exists_version .status hpos (Nat.le_refl _)

theorem Recorder.not_completed {e : Fin n} {cells' : Column → Cell Value}
    (he : Recorder rows history e cells') (h : Linear rows history sent)
    (hup : UpToDate rows history d cells) (hdone : (cells .status).value = .completed) : False := by
  have hk := h.known d cells hup.has .status
  have hk' := h.known e cells' he.has .status
  simp only [Known, hup.last] at hk
  simp only [Known, he.last] at hk'
  obtain ⟨w, hw, hv, hval⟩ := hk
  obtain ⟨w', hw', hv', hval'⟩ := hk'
  rw [h.version_unique hw hw' (hv.trans hv'.symm), hval', he.recording, hdone] at hval
  cases hval

/-- A recorder's row is the last word, so no merge anywhere changes it. -/
theorem Recorder.merge (h : Linear rows history sent) (hd : Recorder rows history d cells)
    {c : Change Key Column Value} (hs : sent c) (e : Fin n) :
    Recorder (Function.update rows e (mergeInsert (rows e) c default)) history d cells := by
  have hrow : mergeInsert (rows d) c default = rows d := by
    rcases h.merge_cases hs d with hsame | ⟨-, f, hf⟩ | ⟨u, cells', hu, -, hfrom⟩
    · exact hsame
    · have := hd.alive f
      omega
    · rcases hfrom with ⟨hzero, -⟩ | ⟨hc, hlt⟩
      · have := h.cl_eq_one hd.has
        omega
      · rw [hd.has, Option.some.injEq] at hc
        subst hc
        have hlt := hlt _ (hd.last u.column)
        rcases h.sent c hs with ⟨-, u', hu', w, hw, hv, -⟩ | ⟨-, hnone, -⟩
        · rw [hu, Option.some.injEq] at hu'
          subst hu'
          have := (h.version_bounds hw).2
          omega
        · rw [hu] at hnone
          cases hnone
  refine { hd with alive := fun f => ?_, has := ?_ }
  · by_cases hf : f = e
    · subst hf
      rw [Function.update_self]
      rcases h.merge_cases hs f with hsame | ⟨-, g, hg⟩ | ⟨u, cells', -, hput, -⟩
      · rw [hsame]
        exact hd.alive f
      · have := hd.alive g
        omega
      · rw [hput]
    · rw [Function.update_of_ne hf]
      exact hd.alive f
  · by_cases hde : d = e
    · subst hde
      rw [Function.update_self, hrow]
      exact hd.has
    · rw [Function.update_of_ne hde]
      exact hd.has

theorem Linear.inserted (h : Linear rows history sent) (hfresh : ∀ col, history col = [])
    (d : Fin n) :
    Recorder (Function.update rows d (.inserted (State.insertedValues d)))
      (fun col => [⟨d, State.insertedValues d col, 1⟩]) d
      (fun col => ⟨State.insertedValues d col, some 1⟩) := by
  refine ⟨⟨fun e => ?_, ?_, fun _ => rfl⟩, rfl, rfl, ?_⟩
  · rw [Function.update_apply]
    split
    · exact Nat.le_refl 1
    · by_contra hpos
      exact h.born e (by omega) .status (hfresh .status)
  · rw [Function.update_self]
    rfl
  · intro w hw _
    rw [List.mem_singleton.mp hw]

end Edits

end YapStack.Recording.Peers
