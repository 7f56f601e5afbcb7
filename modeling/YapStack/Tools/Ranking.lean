import YapStack.Tools.Retrieval

namespace YapStack.Tools.Retrieval

open Firsts

variable {F N : Type} (w : Wording F N) (db : Db F N) (allowed : Option (List String))
  (filters : Option Filters)

/-- A row of a query with its position, before the row limit. -/
structure Ranked where
  tier : SourceType
  hit : SearchResult
  rank : ℕ
  deriving DecidableEq

def Ranked.session (r : Ranked) : String := r.hit.sessionId

def SourceType.limit : SourceType → ℕ
  | .title => titleLimit
  | .note => noteLimit
  | .segment => segmentLimit

/-- The row is inside the limit of its query. -/
def Ranked.kept (r : Ranked) : Bool := r.rank < r.tier.limit

def ranked (tier : SourceType) (hits : List SearchResult) : List Ranked :=
  hits.zipIdx.map fun x => ⟨tier, x.1, x.2⟩

/-- Every matching row, by tier and by relevance inside a tier. -/
def rows (query : List Char) : List Ranked :=
  match toFts5Match query with
  | none => []
  | some m => ranked .title (titleRows db m) ++ ranked .note (noteRows w db m) ++
      ranked .segment (segmentRows db m)

/-- The session is in the scope and passes the filters. -/
def eligible (id : String) : Bool :=
  inScope allowed id && (sessionById db id).any (passesFilters db filters)

/-- The best row of each eligible session. -/
def ranking (query : List Char) : List Ranked :=
  firsts Ranked.session ((rows w db query).filter (eligible db allowed filters ∘ Ranked.session))

/-- A row as it is written out. -/
def listed (r : Ranked) : SessionSearchCandidate :=
  { candidateOf w db r.tier r.hit r.rank with
    date := ((sessionById db r.session).map (·.created_at)).getD ""
    folder_path := ((db.sessionFolders.filter (·.session_id = r.session)).map
      (·.folder_id)).head?.map (w.folderPathString db.folders) }

/-- Tier first, position second. -/
def Ranked.Before (a b : Ranked) : Prop :=
  a.tier.tier < b.tier.tier ∨ a.tier = b.tier ∧ a.rank < b.rank

variable {w db allowed filters} {hits : List SearchResult} {tier : SourceType} {r : Ranked}
  {query m : List Char} {n : ℕ}

theorem filter_zipIdx_lt {α : Type*} (l : List α) (k n : ℕ) :
    (l.zipIdx k).filter (fun x => decide (x.2 < k + n)) = (l.take n).zipIdx k := by
  induction l generalizing k n with
  | nil => simp
  | cons a l ih =>
    cases n with
    | zero =>
      rw [List.take_zero, List.zipIdx_nil, List.filter_eq_nil_iff]
      intro x hx
      have := List.le_snd_of_mem_zipIdx hx
      simpa using this
    | succ n =>
      rw [List.zipIdx_cons, List.filter_cons_of_pos (by simp), List.take_succ_cons,
        List.zipIdx_cons, ← ih (k + 1) n]
      refine congrArg _ (List.filter_congr (fun x _ => ?_))
      rw [Nat.add_right_comm, Nat.add_assoc k]

theorem ranked_kept (tier : SourceType) (hits : List SearchResult) :
    (ranked tier hits).filter Ranked.kept = ranked tier (hits.take tier.limit) := by
  have hcut := filter_zipIdx_lt hits 0 tier.limit
  simp only [Nat.zero_add] at hcut
  rw [ranked, List.filter_map, ranked, ← hcut]
  rfl

theorem mem_ranked : r ∈ ranked tier hits ↔ r.tier = tier ∧ hits[r.rank]? = some r.hit := by
  obtain ⟨t, hit, rank⟩ := r
  simp only [ranked, List.mem_map, Ranked.mk.injEq]
  constructor
  · rintro ⟨⟨a, i⟩, hin, rfl, rfl, rfl⟩
    exact ⟨rfl, List.mem_zipIdx_iff_getElem?.mp hin⟩
  · rintro ⟨rfl, hget⟩
    exact ⟨(hit, rank), List.mem_zipIdx_iff_getElem?.mpr hget, rfl, rfl, rfl⟩

theorem ranked_pairwise (tier : SourceType) (hits : List SearchResult) :
    (ranked tier hits).Pairwise Ranked.Before := by
  rw [ranked, List.pairwise_map]
  have hsorted : (hits.zipIdx).Pairwise (fun a b => a.2 < b.2) := by
    have := List.pairwise_lt_range' (s := 0) (n := hits.length)
    rw [← List.zipIdx_map_snd, List.pairwise_map] at this
    exact this
  exact hsorted.imp (fun h => .inr ⟨rfl, h⟩)

theorem rows_pairwise (query : List Char) : (rows w db query).Pairwise Ranked.Before := by
  rw [rows]
  split
  · exact List.Pairwise.nil
  · refine List.pairwise_append.mpr ⟨List.pairwise_append.mpr
      ⟨ranked_pairwise _ _, ranked_pairwise _ _, ?_⟩, ranked_pairwise _ _, ?_⟩
    · intro a ha b hb
      rw [Ranked.Before, (mem_ranked.mp ha).1, (mem_ranked.mp hb).1]
      exact .inl (by decide)
    · intro a ha b hb
      rw [Ranked.Before, (mem_ranked.mp hb).1]
      obtain ha | ha := List.mem_append.mp ha
      · rw [(mem_ranked.mp ha).1]
        exact .inl (by decide)
      · rw [(mem_ranked.mp ha).1]
        exact .inl (by decide)

theorem addHits_entries (w : Wording F N) (db : Db F N) (tier : SourceType) (scope : String → Bool) (hits : List SearchResult)
    (m : Candidates) :
    (addHits w db tier scope hits m).entries = m.entries ++
      ((firsts Ranked.session ((ranked tier hits).filter (scope ∘ Ranked.session))).filter
        (fun r => r.session ∉ m.keys)).map
        (fun r => (r.session, candidateOf w db r.tier r.hit r.rank)) := by
  rw [← foldl_absent_entries Ranked.session (fun r => candidateOf w db r.tier r.hit r.rank),
    List.foldl_filter, ranked, List.foldl_map, addHits]
  congr 2
  funext m x
  by_cases hscope : scope x.1.sessionId = true
  · simp only [Function.comp_apply, Ranked.session, hscope, if_true, Bool.not_true, Bool.false_or]
    rfl
  · simp [hscope, Ranked.session]

theorem titles_nodup (db : Db F N) (m : List Char) (scope : String → Bool) (n : ℕ) :
    (((ranked .title ((titleRows db m).take n)).filter (scope ∘ Ranked.session)).map
      Ranked.session).Nodup := by
  have hids : ((titleRows db m).map (·.sessionId)).Nodup := by
    have hsub : ((titleRows db m).map (·.sessionId)).Sublist (db.sessionsFts m) := by
      rw [titleRows]
      induction db.sessionsFts m with
      | nil => exact List.Sublist.refl _
      | cons id ids ih =>
        rw [List.filterMap_cons]
        cases hs : sessionById db id with
        | none => exact ih.cons _
        | some s =>
          have hid : s.id = id := by
            have := List.find?_some hs
            simpa using this
          rw [Option.map_some, List.map_cons, hid]
          exact ih.cons_cons _
    exact (db.sessionsFts_nodup m).sublist hsub
  have hranked : (ranked .title ((titleRows db m).take n)).map Ranked.session =
      ((titleRows db m).take n).map (·.sessionId) := by
    have hfst := congrArg (List.map (·.sessionId)) (List.zipIdx_map_fst 0 ((titleRows db m).take n))
    rw [List.map_map] at hfst
    rw [ranked, List.map_map]
    exact hfst
  refine (hids.sublist (List.take_sublist n _ |>.map _)).sublist ?_
  rw [← hranked]
  exact List.filter_sublist.map _

theorem addTitles_entries (w : Wording F N) (db : Db F N) (m : List Char) (scope : String → Bool) (n : ℕ) :
    (addTitles w db scope ((titleRows db m).take n) JsMap.empty).entries =
      (firsts Ranked.session ((ranked .title ((titleRows db m).take n)).filter
        (scope ∘ Ranked.session))).map
        (fun r => (r.session, candidateOf w db r.tier r.hit r.rank)) := by
  have hnodup := titles_nodup db m scope n
  rw [firsts_of_nodup hnodup]
  have hset := JsMap.foldl_set_entries (m := (JsMap.empty : Candidates)) Ranked.session
    (fun r => candidateOf w db r.tier r.hit r.rank) hnodup (by simp [JsMap.keys, JsMap.empty])
  rw [List.foldl_filter, ranked, List.foldl_map] at hset
  rw [addTitles]
  exact hset

/-- The map's entries: the first kept row of each session in the scope. -/
theorem bySessionId_entries (m : List Char) (scope : String → Bool) :
    (addHits w db .segment scope ((segmentRows db m).take segmentLimit)
      (addHits w db .note scope ((noteRows w db m).take noteLimit)
        (addTitles w db scope ((titleRows db m).take titleLimit) JsMap.empty))).entries =
      (firsts Ranked.session (((ranked .title (titleRows db m) ++ ranked .note (noteRows w db m) ++
        ranked .segment (segmentRows db m)).filter Ranked.kept).filter
          (scope ∘ Ranked.session))).map
        (fun r => (r.session, candidateOf w db r.tier r.hit r.rank)) := by
  have hkeys : ∀ (rs : List Ranked) (bySessionId : Candidates), bySessionId.entries =
      (firsts Ranked.session rs).map (fun r => (r.session, candidateOf w db r.tier r.hit r.rank)) →
      ∀ r : Ranked, (r.session ∈ bySessionId.keys) = (r.session ∈ rs.map Ranked.session) := by
    intro rs bySessionId hentries r
    rw [JsMap.keys, hentries, List.map_map]
    refine propext ⟨fun h => ?_, fun h => ?_⟩
    · obtain ⟨a, ha, hkey⟩ := List.mem_map.mp h
      exact List.mem_map.mpr ⟨a, mem_of_mem_firsts ha, hkey⟩
    · obtain ⟨a, ha, hkey⟩ := List.mem_map.mp h
      obtain ⟨b, hb, hb'⟩ := exists_mem_firsts Ranked.session ha
      exact List.mem_map.mpr ⟨b, hb, hb'.trans hkey⟩
  have htitles := addTitles_entries w db m scope titleLimit
  have hnotes := addHits_entries w db .note scope ((noteRows w db m).take noteLimit)
    (addTitles w db scope ((titleRows db m).take titleLimit) JsMap.empty)
  simp only [htitles, hkeys _ _ htitles, ← List.map_append, ← firsts_append] at hnotes
  have hsegments := addHits_entries w db .segment scope
    ((segmentRows db m).take segmentLimit) (addHits w db .note scope
      ((noteRows w db m).take noteLimit)
        (addTitles w db scope ((titleRows db m).take titleLimit) JsMap.empty))
  simp only [hnotes, hkeys _ _ hnotes, ← List.map_append, ← firsts_append] at hsegments
  simp only [hsegments, List.filter_append, ranked_kept]
  rfl

theorem find?_getSessionsByIds {ids : List String} {id : String} (h : id ∈ ids) :
    (getSessionsByIds db ids).find? (·.id = id) = sessionById db id := by
  rw [getSessionsByIds, List.find?_filter, sessionById]
  congr 1
  funext s
  by_cases hs : s.id = id
  · simp [hs, h]
  · simp [hs]

theorem enrich_candidateOf (w : Wording F N) (db : Db F N) (filters : Option Filters)
    {ids : List String} (h : r.session ∈ ids) :
    enrich w db filters (getSessionsByIds db ids) (candidateOf w db r.tier r.hit r.rank) =
      if (sessionById db r.session).any (passesFilters db filters) then some (listed w db r)
      else none := by
  have hfind : (getSessionsByIds db ids).find?
      (·.id = (candidateOf w db r.tier r.hit r.rank).session_id) = sessionById db r.session :=
    find?_getSessionsByIds h
  rw [enrich, hfind, listed]
  cases sessionById db r.session with
  | none => rfl
  | some s => rfl

theorem filterMap_ite {α β : Type*} (p : α → Bool) (f : α → β) (l : List α) :
    l.filterMap (fun a => if p a then some (f a) else none) = (l.filter p).map f := by
  induction l with
  | nil => rfl
  | cons a l ih =>
    by_cases hp : p a = true
    · rw [List.filterMap_cons_some (by rw [if_pos hp]), List.filter_cons_of_pos hp, List.map_cons, ih]
    · rw [List.filterMap_cons_none (by rw [if_neg hp]), List.filter_cons_of_neg hp, ih]

theorem score_kept (hr : r.kept = true) :
    score r.rank r.tier.tier = 1000 - r.tier.tier * 100 - r.rank ∧ r.rank < 50 := by
  have hlt : r.rank < r.tier.limit := of_decide_eq_true hr
  have hlimit : r.tier.limit ≤ 50 := by
    cases r.tier <;> decide
  have htier : r.tier.tier ≤ 2 := by
    cases r.tier <;> decide
  rw [score]
  omega

theorem score_le_of_before {a b : Ranked} (hab : a.Before b) (ha : a.kept = true)
    (hb : b.kept = true) : score b.rank b.tier.tier ≤ score a.rank a.tier.tier := by
  obtain ⟨ha, _⟩ := score_kept ha
  obtain ⟨hb, _⟩ := score_kept hb
  rw [ha, hb]
  obtain h | ⟨h, hrank⟩ := hab
  · omega
  · rw [h]
    omega

/-- What `search_sessions` lists: the first kept row of each eligible session, in order. -/
theorem searchSessions_eq {arg : List Char} (harg : Texts.trim isSpace arg ≠ [])
    (limitArg : Option ℚ) :
    searchSessions w db allowed arg filters limitArg =
      .ok (((firsts Ranked.session (((rows w db (Texts.trim isSpace arg)).filter
        (eligible db allowed filters ∘ Ranked.session)).filter Ranked.kept)).take
          ⌊limitOf limitArg⌋₊).map (listed w db)) := by
  rw [searchSessions, if_neg harg]
  generalize Texts.trim isSpace arg = query
  have hentries : (addHits w db .segment (inScope allowed) (searchSegments db query)
      (addHits w db .note (inScope allowed) (searchNotes w db query)
        (addTitles w db (inScope allowed) (searchSessionsByTitle db query) JsMap.empty))).entries =
      (firsts Ranked.session (((rows w db query).filter Ranked.kept).filter
        (inScope allowed ∘ Ranked.session))).map
        (fun r => (r.session, candidateOf w db r.tier r.hit r.rank)) := by
    rw [searchSegments, searchNotes, searchSessionsByTitle, rows]
    cases toFts5Match query with
    | none => rfl
    | some m => exact bySessionId_entries m _
  dsimp only
  generalize addHits w db .segment (inScope allowed) (searchSegments db query)
    (addHits w db .note (inScope allowed) (searchNotes w db query)
      (addTitles w db (inScope allowed) (searchSessionsByTitle db query) JsMap.empty)) =
    bySessionId at hentries
  have henriched : bySessionId.values.filterMap
      (enrich w db filters (getSessionsByIds db bySessionId.keys)) =
      (firsts Ranked.session (((rows w db query).filter
        (eligible db allowed filters ∘ Ranked.session)).filter Ranked.kept)).map (listed w db) := by
    have hkeys : bySessionId.keys = (firsts Ranked.session (((rows w db query).filter
        Ranked.kept).filter (inScope allowed ∘ Ranked.session))).map Ranked.session := by
      rw [JsMap.keys, hentries, List.map_map]
      rfl
    rw [JsMap.values, hentries, List.map_map, List.filterMap_map]
    refine (List.filterMap_congr (fun r hr => enrich_candidateOf w db filters ?_)).trans ?_
    · rw [hkeys]
      exact List.mem_map_of_mem hr
    rw [filterMap_ite]
    refine congrArg _ ?_
    have hpass := firsts_filter Ranked.session
      (fun id => (sessionById db id).any (passesFilters db filters))
      (((rows w db query).filter Ranked.kept).filter (inScope allowed ∘ Ranked.session))
    refine hpass.symm.trans (congrArg _ ?_)
    simp only [List.filter_filter]
    refine List.filter_congr (fun r _ => ?_)
    simp only [Function.comp_apply, eligible, Bool.and_comm, Bool.and_assoc]
  have hsorted : ((firsts Ranked.session (((rows w db query).filter
      (eligible db allowed filters ∘ Ranked.session)).filter Ranked.kept)).map
        (listed w db)).Pairwise (fun a b => b.score ≤ a.score) := by
    rw [List.pairwise_map]
    have hsub := firsts_sublist Ranked.session (((rows w db query).filter
      (eligible db allowed filters ∘ Ranked.session)).filter Ranked.kept)
    refine List.Pairwise.imp_of_mem ?_ ((rows_pairwise query).sublist
      (hsub.trans (List.filter_sublist.trans List.filter_sublist)))
    intro a b ha hb hab
    exact score_le_of_before hab (List.mem_filter.mp (hsub.subset ha)).2
      (List.mem_filter.mp (hsub.subset hb)).2
  rw [henriched, hsorted.insertionSort_eq, List.map_take]

end YapStack.Tools.Retrieval
