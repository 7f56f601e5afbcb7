import Mathlib.Data.Fintype.EquivFin
import YapStack.Tools.Ranking

namespace YapStack.Tools.Retrieval

open Firsts

variable {F N : Type} {w : Wording F N} {db db' : Db F N} {allowed : Option (List String)}
  {filters : Option Filters} {arg query : List Char} {limitArg : Option ℚ} {r : Ranked}

/-- What is listed, without a listing where the query is refused. -/
def listing (w : Wording F N) (db : Db F N) (allowed : Option (List String)) (arg : List Char)
    (filters : Option Filters) (limitArg : Option ℚ) : List SessionSearchCandidate :=
  ((searchSessions w db allowed arg filters limitArg).toOption).getD []

/-- The best rows that the limit asks for. -/
def best (w : Wording F N) (db : Db F N) (allowed : Option (List String)) (arg : List Char)
    (filters : Option Filters) (limitArg : Option ℚ) : List Ranked :=
  (ranking w db allowed filters (Texts.trim isSpace arg)).take ⌊limitOf limitArg⌋₊

/-- The sessions that are listed, each under its tier, are the first of the ranking. -/
def Complete (w : Wording F N) (db : Db F N) (allowed : Option (List String)) (arg : List Char)
    (filters : Option Filters) (limitArg : Option ℚ) : Prop :=
  (listing w db allowed arg filters limitArg).map (fun c => (c.session_id, c.source_type)) =
    (best w db allowed arg filters limitArg).map (fun r => (r.session, r.tier))

/-- Two databases agree on the sessions of the scope and on the order of their rows. -/
structure Agree (w : Wording F N) (allowed : Option (List String)) (db db' : Db F N) : Prop where
  sessions : ∀ id, inScope allowed id = true → sessionById db' id = sessionById db id
  notes : ∀ id, inScope allowed id = true →
    db'.notes.filter (·.session_id = id) = db.notes.filter (·.session_id = id)
  segments : ∀ id, inScope allowed id = true →
    db'.segments.filter (·.session_id = id) = db.segments.filter (·.session_id = id)
  folders : db'.folders = db.folders
  filings : ∀ id, inScope allowed id = true →
    db'.sessionFolders.filter (·.session_id = id) = db.sessionFolders.filter (·.session_id = id)
  names : ∀ id, inScope allowed id = true → db'.speakerNames id = db.speakerNames id
  titleOrder : ∀ m, (titleRows db' m).filter (inScope allowed ·.sessionId) =
    (titleRows db m).filter (inScope allowed ·.sessionId)
  noteOrder : ∀ m, (noteRows w db' m).filter (inScope allowed ·.sessionId) =
    (noteRows w db m).filter (inScope allowed ·.sessionId)
  segmentOrder : ∀ m, (segmentRows db' m).filter (inScope allowed ·.sessionId) =
    (segmentRows db m).filter (inScope allowed ·.sessionId)

theorem rows_nil (w : Wording F N) (db : Db F N) : rows w db [] = [] := rfl

theorem listing_eq (w : Wording F N) (db : Db F N) (allowed : Option (List String))
    (arg : List Char) (filters : Option Filters) (limitArg : Option ℚ) :
    listing w db allowed arg filters limitArg =
      ((firsts Ranked.session (((rows w db (Texts.trim isSpace arg)).filter
        (eligible db allowed filters ∘ Ranked.session)).filter Ranked.kept)).take
          ⌊limitOf limitArg⌋₊).map (listed w db) := by
  rw [listing]
  by_cases harg : Texts.trim isSpace arg = []
  · rw [searchSessions, if_pos harg, harg, rows_nil]
    simp [Except.toOption, firsts]
  · rw [searchSessions_eq harg]
    rfl

/-- The best rows are all inside the row limits. -/
def AllKept (w : Wording F N) (db : Db F N) (allowed : Option (List String)) (arg : List Char)
    (filters : Option Filters) (limitArg : Option ℚ) : Prop :=
  ∀ r ∈ best w db allowed arg filters limitArg, r.kept = true

theorem listing_of_allKept (h : AllKept w db allowed arg filters limitArg) :
    listing w db allowed arg filters limitArg =
      (best w db allowed arg filters limitArg).map (listed w db) := by
  rw [listing_eq, best, ranking, take_firsts_filter _ _ h]

theorem complete_iff : Complete w db allowed arg filters limitArg ↔
    AllKept w db allowed arg filters limitArg := by
  constructor
  · intro h r hr
    have hin := List.mem_map_of_mem (f := fun r : Ranked => (r.session, r.tier)) hr
    rw [Complete, listing_eq, List.map_map] at h
    rw [← h] at hin
    obtain ⟨a, ha, hpair⟩ := List.mem_map.mp hin
    obtain ⟨hsession, htier⟩ := Prod.mk.inj hpair
    have ha := mem_of_mem_firsts (List.mem_of_mem_take ha)
    obtain ⟨ha, hkept⟩ := List.mem_filter.mp ha
    have hbefore := first_before ((rows_pairwise _).sublist List.filter_sublist)
      (List.mem_of_mem_take hr) ha hsession
    have hle : r.rank ≤ a.rank := by
      obtain rfl | hlt | ⟨_, hlt⟩ := hbefore
      · exact Nat.le_refl _
      · have htier : a.tier = r.tier := htier
        rw [htier] at hlt
        exact absurd hlt (Nat.lt_irrefl _)
      · exact hlt.le
    have htier : a.tier = r.tier := htier
    have hlt : a.rank < a.tier.limit := of_decide_eq_true hkept
    rw [htier] at hlt
    exact decide_eq_true (Nat.lt_of_le_of_lt hle hlt)
  · intro h
    rw [Complete, listing_of_allKept h, List.map_map]
    rfl

theorem sessionById_id {id : String} {row : SessionRow} (h : sessionById db id = some row) :
    row.id = id := by
  simpa using List.find?_some h

theorem getNote_agree (h : Agree w allowed db db') {id : String} (hid : inScope allowed id = true) :
    getNote db' id = getNote db id := by
  rw [getNote, getNote, ← List.head?_filter, ← List.head?_filter, h.notes id hid]

theorem getSessionSegments_agree (h : Agree w allowed db db') {id : String}
    (hid : inScope allowed id = true) : getSessionSegments db' id = getSessionSegments db id := by
  have hsplit : ∀ d : Db F N, (d.segments.filter fun seg => seg.session_id = id &&
      seg.deleted_at = none) = (d.segments.filter (·.session_id = id)).filter
        (·.deleted_at = none) := by
    intro d
    rw [List.filter_filter]
    exact List.filter_congr (fun _ _ => Bool.and_comm _ _)
  rw [getSessionSegments, getSessionSegments, hsplit, hsplit, h.segments id hid]

theorem contextLine_agree (h : Agree w allowed db db') {id : String}
    (hid : inScope allowed id = true) : contextLine w db' id = contextLine w db id := by
  funext seg
  rw [contextLine, contextLine, h.names id hid]

/-- The expansion of sessions reads nothing outside the scope. -/
theorem getSessionContext_agree (h : Agree w allowed db db') (sessionIds : List String)
    (scope : String) : getSessionContext w db' allowed sessionIds scope =
      getSessionContext w db allowed sessionIds scope := by
  rw [getSessionContext, getSessionContext]
  split
  · rfl
  · split
    · rfl
    · dsimp only
      split
      · rfl
      · next hscope =>
        have hin : ∀ id ∈ sessionIds, inScope allowed id = true := by
          intro id hid
          by_contra hout
          exact hscope (List.ne_nil_of_mem (List.mem_filter.mpr ⟨hid, by simpa using hout⟩))
        refine congrArg _ (List.map_congr_left (fun id hid => congrArg _ ?_))
        rw [contextBlock, contextBlock, find?_getSessionsByIds hid, find?_getSessionsByIds hid,
          h.sessions id (hin id hid), getNote_agree h (hin id hid),
          getSessionSegments_agree h (hin id hid), contextLine_agree h (hin id hid)]

theorem passesFilters_agree (h : Agree w allowed db db') {row : SessionRow}
    (hid : inScope allowed row.id = true) :
    passesFilters db' filters row = passesFilters db filters row := by
  have hany : ∀ (d : Db F N) (folder_id : String), (d.sessionFolders.any fun sf =>
      sf.session_id = row.id && sf.folder_id = folder_id) =
      (d.sessionFolders.filter (·.session_id = row.id)).any (·.folder_id = folder_id) :=
    fun d folder_id => List.any_filter.symm
  simp only [passesFilters, hany, h.filings row.id hid]

theorem eligible_agree (h : Agree w allowed db db') (id : String) :
    eligible db' allowed filters id = eligible db allowed filters id := by
  rw [eligible, eligible]
  cases hid : inScope allowed id with
  | false => rfl
  | true =>
    rw [h.sessions id hid]
    cases hrow : sessionById db id with
    | none => rfl
    | some row =>
      rw [Option.any_some, Option.any_some, passesFilters_agree h (sessionById_id hrow ▸ hid)]

/-- A row without its position. -/
def Ranked.unranked (r : Ranked) : SourceType × SearchResult := (r.tier, r.hit)

theorem ranked_unranked (tier : SourceType) (hits : List SearchResult) (p : String → Bool) :
    ((ranked tier hits).filter (p ∘ Ranked.session)).map Ranked.unranked =
      (hits.filter (p ·.sessionId)).map (tier, ·) := by
  have hfst : (ranked tier hits).map Ranked.unranked = hits.map (tier, ·) := by
    have hmap := congrArg (List.map (tier, ·)) (List.zipIdx_map_fst 0 hits)
    rw [List.map_map] at hmap
    rw [ranked, List.map_map]
    exact hmap
  have hleft := List.filter_map (p := fun x : SourceType × SearchResult => p x.2.sessionId)
    (f := Ranked.unranked) (l := ranked tier hits)
  have hright := List.filter_map (p := fun x : SourceType × SearchResult => p x.2.sessionId)
    (f := fun hit => (tier, hit)) (l := hits)
  rw [hfst, hright] at hleft
  exact hleft.symm

theorem rows_agree (h : Agree w allowed db db') (query : List Char) :
    ((rows w db' query).filter (eligible db' allowed filters ∘ Ranked.session)).map
        Ranked.unranked =
      ((rows w db query).filter (eligible db allowed filters ∘ Ranked.session)).map
        Ranked.unranked := by
  have hlist : ∀ hits hits' : List SearchResult,
      hits'.filter (inScope allowed ·.sessionId) = hits.filter (inScope allowed ·.sessionId) →
      hits'.filter (eligible db' allowed filters ·.sessionId) =
        hits.filter (eligible db allowed filters ·.sessionId) := by
    intro hits hits' horder
    have hsplit : ∀ (d : Db F N) (l : List SearchResult),
        l.filter (eligible d allowed filters ·.sessionId) =
          (l.filter (inScope allowed ·.sessionId)).filter
            (eligible d allowed filters ·.sessionId) := by
      intro d l
      rw [List.filter_filter]
      refine List.filter_congr (fun hit _ => ?_)
      simp only [eligible, Bool.and_comm, Bool.and_self_left]
    rw [hsplit db', horder, hsplit db hits]
    exact List.filter_congr (fun hit _ => eligible_agree h hit.sessionId)
  rw [rows, rows]
  cases toFts5Match query with
  | none => rfl
  | some m =>
    simp only [List.filter_append, List.map_append, ranked_unranked, hlist _ _ (h.titleOrder m),
      hlist _ _ (h.noteOrder m), hlist _ _ (h.segmentOrder m)]

theorem best_agree (arg : List Char) (filters : Option Filters) (limitArg : Option ℚ)
    (h : Agree w allowed db db') :
    (best w db' allowed arg filters limitArg).map Ranked.unranked =
      (best w db allowed arg filters limitArg).map Ranked.unranked := by
  have hkey : Ranked.session = (fun x : SourceType × SearchResult => x.2.sessionId) ∘
    Ranked.unranked := rfl
  rw [best, best, List.map_take, List.map_take, ranking, ranking, hkey, ← firsts_map,
    ← firsts_map]
  exact congrArg _ (congrArg _ (rows_agree h _))

def SessionSearchCandidate.unscored (c : SessionSearchCandidate) : SessionSearchCandidate :=
  { c with score := 0 }

theorem listed_agree (h : Agree w allowed db db') {a b : Ranked}
    (hab : a.unranked = b.unranked) (hin : inScope allowed b.session = true) :
    (listed w db' a).unscored = (listed w db b).unscored := by
  have hsession : a.session = b.session := congrArg (·.2.sessionId) hab
  have hcandidate : (candidateOf w db' a.tier a.hit a.rank).unscored =
      (candidateOf w db b.tier b.hit b.rank).unscored := by
    obtain ⟨htier, hhit⟩ := Prod.mk.inj hab
    have hnames : db'.speakerNames b.hit.sessionId = db.speakerNames b.hit.sessionId :=
      h.names _ hin
    simp only [SessionSearchCandidate.unscored, candidateOf, htier, hhit, hnames]
  simp only [SessionSearchCandidate.unscored] at hcandidate ⊢
  rw [listed, listed, hsession, h.sessions _ hin, h.filings _ hin, h.folders]
  simp only [SessionSearchCandidate.mk.injEq] at hcandidate ⊢
  exact ⟨hcandidate.1, hcandidate.2.1, trivial, trivial, hcandidate.2.2.2.2.1,
    hcandidate.2.2.2.2.2.1, trivial⟩

/-- Without a cut, two databases that agree on the scope are listed alike but for the scores. -/
theorem listing_agree (h : Agree w allowed db db')
    (hkept : AllKept w db allowed arg filters limitArg)
    (hkept' : AllKept w db' allowed arg filters limitArg) :
    (listing w db' allowed arg filters limitArg).map SessionSearchCandidate.unscored =
      (listing w db allowed arg filters limitArg).map SessionSearchCandidate.unscored := by
  have hin : ∀ r ∈ best w db allowed arg filters limitArg, inScope allowed r.session = true := by
    intro r hr
    have hr := mem_of_mem_firsts (List.mem_of_mem_take hr)
    exact (Bool.and_eq_true_iff.mp (List.mem_filter.mp hr).2).1
  have hbest := best_agree arg filters limitArg h
  rw [listing_of_allKept hkept, listing_of_allKept hkept', List.map_map, List.map_map]
  generalize best w db' allowed arg filters limitArg = as at hbest
  generalize best w db allowed arg filters limitArg = bs at hbest hin
  induction bs generalizing as with
  | nil =>
    rw [List.map_eq_nil_iff.mp hbest]
    rfl
  | cons b bs ih =>
    cases as with
    | nil => simp at hbest
    | cons a as =>
      obtain ⟨hab, hrest⟩ := List.cons.inj hbest
      rw [List.map_cons, List.map_cons, ih as hrest (fun r hr => hin r (List.mem_cons_of_mem _ hr))]
      exact congrArg (· :: _) (listed_agree h hab (hin b List.mem_cons_self))

/-- The rows of a query by their tier. -/
def tierRows (w : Wording F N) (db : Db F N) (m : List Char) : SourceType → List SearchResult
  | .title => titleRows db m
  | .note => noteRows w db m
  | .segment => segmentRows db m

theorem mem_rows {m : List Char} (hm : toFts5Match query = some m) :
    r ∈ rows w db query ↔ (tierRows w db m r.tier)[r.rank]? = some r.hit := by
  simp only [rows, hm, List.mem_append, mem_ranked]
  cases hr : r.tier <;> simp [tierRows]

/-- One more session, outside the scope, that matches first in every tier. -/
def crowd (db : Db F N) (m : List Char) (z : String) (hz : z ∉ db.sessionsFts m) : Db F N where
  sessions := ⟨z, "", "", 0⟩ :: db.sessions
  notes := ⟨z, z, ""⟩ :: db.notes
  segments := ⟨z, z, "", .mic, none, 0, none, some 0⟩ :: db.segments
  folders := db.folders
  sessionFolders := db.sessionFolders
  speakerNames := db.speakerNames
  sessionsFts := fun m' => if m' = m then z :: db.sessionsFts m' else db.sessionsFts m'
  notesFts := fun m' => if m' = m then z :: db.notesFts m' else db.notesFts m'
  segmentsFts := fun m' => if m' = m then z :: db.segmentsFts m' else db.segmentsFts m'
  sessionsFts_nodup := by
    intro m'
    split
    · next h => exact List.nodup_cons.mpr ⟨h ▸ hz, db.sessionsFts_nodup m'⟩
    · exact db.sessionsFts_nodup m'

/-- A name that no row uses. -/
structure Unused (db : Db F N) (m : List Char) (z : String) : Prop where
  session : z ∉ db.sessions.map (·.id)
  note : z ∉ db.notes.map (·.id)
  noteSession : z ∉ db.notes.map (·.session_id)
  segment : z ∉ db.segments.map (·.id)
  segmentSession : z ∉ db.segments.map (·.session_id)
  filing : z ∉ db.sessionFolders.map (·.session_id)
  titleIndex : z ∉ db.sessionsFts m
  noteIndex : z ∉ db.notesFts m
  segmentIndex : z ∉ db.segmentsFts m

theorem exists_unused (db : Db F N) (m : List Char) (ids : List String) :
    ∃ z, Unused db m z ∧ z ∉ ids := by
  obtain ⟨z, hz⟩ := Infinite.exists_notMem_finset (db.sessions.map (·.id) ++
    db.notes.map (·.id) ++ db.notes.map (·.session_id) ++ db.segments.map (·.id) ++
    db.segments.map (·.session_id) ++ db.sessionFolders.map (·.session_id) ++
    db.sessionsFts m ++ db.notesFts m ++ db.segmentsFts m ++ ids).toFinset
  simp only [List.mem_toFinset, List.mem_append, not_or, and_assoc] at hz
  obtain ⟨h₁, h₂, h₃, h₄, h₅, h₆, h₇, h₈, h₉, hids⟩ := hz
  exact ⟨z, ⟨h₁, h₂, h₃, h₄, h₅, h₆, h₇, h₈, h₉⟩, hids⟩

theorem find?_cons_unused {α : Type*} {f : α → String} {z id : String} {a : α} {l : List α}
    (ha : f a = z) (hid : id ≠ z) : (a :: l).find? (f · = id) = l.find? (f · = id) :=
  List.find?_cons_of_neg (by simpa [ha] using Ne.symm hid)

theorem find?_unused {α : Type*} {f : α → String} {z : String} {l : List α}
    (hz : z ∉ l.map f) : l.find? (f · = z) = none := by
  rw [List.find?_eq_none]
  intro a ha hfa
  exact hz (List.mem_map.mpr ⟨a, ha, by simpa using hfa⟩)

theorem filter_cons_unused {α : Type*} {f : α → String} {z id : String} {a : α} {l : List α}
    (ha : f a = z) (hid : id ≠ z) : (a :: l).filter (f · = id) = l.filter (f · = id) :=
  List.filter_cons_of_neg (by simpa [ha] using Ne.symm hid)

/-- What an index gives for the crowded database, row by row. -/
theorem filterMap_crowd {f f' : String → Option SearchResult} {p : SearchResult → Bool}
    {ids : List String} {z : String} (hsame : ∀ id, id ≠ z → f' id = f id)
    (hnone : f z = none) (hout : (f' z).all (fun hit => !p hit) = true) (first : Bool) :
    ((if first then z :: ids else ids).filterMap f').filter p = (ids.filterMap f).filter p := by
  have hrow : ∀ id, (f' id).filter p = (f id).filter p := by
    intro id
    by_cases hid : id = z
    · subst hid
      rw [hnone]
      cases hf : f' id with
      | none => rfl
      | some hit =>
        rw [hf] at hout
        simp only [Option.all_some, Bool.not_eq_true'] at hout
        simp [Option.filter, hout]
    · rw [hsame id hid]
  have hids : (ids.filterMap f').filter p = (ids.filterMap f).filter p := by
    rw [List.filter_filterMap, List.filter_filterMap]
    exact List.filterMap_congr (fun id _ => hrow id)
  cases first with
  | false => exact hids
  | true =>
    rw [if_pos rfl, ← List.singleton_append, List.filterMap_append, List.filter_append, hids,
      List.filter_filterMap, List.filterMap_cons_none, List.filterMap_nil, List.nil_append]
    rw [hrow, hnone]
    rfl

variable {m : List Char} {z : String}

/-- The row of the crowd in each tier. -/
def crowdHit (w : Wording F N) (z : String) : SourceType → SearchResult
  | .title => ⟨z, "Untitled", "", none, none⟩
  | .note => ⟨z, "Untitled", w.stripHtml "", none, none⟩
  | .segment => ⟨z, "Untitled", "", some .mic, none⟩

/-- What the index of a tier gives for one id. -/
def rowOf (w : Wording F N) (db : Db F N) : SourceType → String → Option SearchResult
  | .title => fun id => (sessionById db id).map fun s =>
      ⟨s.id, orUntitled s.title, "", none, none⟩
  | .note => fun id => (db.notes.find? (·.id = id)).bind fun n =>
      (sessionById db n.session_id).map fun s =>
        ⟨n.session_id, orUntitled s.title, w.stripHtml n.content, none, none⟩
  | .segment => fun id => (db.segments.find? (·.id = id)).bind fun seg =>
      if seg.deleted_at = none && seg.shown then
        (sessionById db seg.session_id).map fun s =>
          ⟨seg.session_id, orUntitled s.title, seg.text, some seg.source, seg.speaker_id⟩
      else none

def indexOf (db : Db F N) (m : List Char) : SourceType → List String
  | .title => db.sessionsFts m
  | .note => db.notesFts m
  | .segment => db.segmentsFts m

theorem tierRows_eq (m : List Char) (tier : SourceType) :
    tierRows w db m tier = (indexOf db m tier).filterMap (rowOf w db tier) := by
  cases tier <;> rfl

theorem indexOf_crowd (hz : z ∉ db.sessionsFts m) (m' : List Char) (tier : SourceType) :
    indexOf (crowd db m z hz) m' tier =
      if decide (m' = m) then z :: indexOf db m' tier else indexOf db m' tier := by
  by_cases h : m' = m <;> cases tier <;> simp [indexOf, crowd, h]

theorem sessionById_crowd (hz : z ∉ db.sessionsFts m) {id : String} (hid : id ≠ z) :
    sessionById (crowd db m z hz) id = sessionById db id :=
  find?_cons_unused rfl hid

theorem rowOf_crowd (h : Unused db m z) (tier : SourceType) {id : String} (hid : id ≠ z) :
    rowOf w (crowd db m z h.titleIndex) tier id = rowOf w db tier id := by
  cases tier with
  | title => simp only [rowOf, sessionById_crowd _ hid]
  | note =>
    have hfind : (crowd db m z h.titleIndex).notes.find? (·.id = id) =
        db.notes.find? (·.id = id) := find?_cons_unused rfl hid
    simp only [rowOf, hfind]
    cases hn : db.notes.find? (·.id = id) with
    | none => rfl
    | some n =>
      have hsession : n.session_id ≠ z := by
        rintro rfl
        exact h.noteSession (List.mem_map.mpr ⟨n, List.mem_of_find?_eq_some hn, rfl⟩)
      simp only [Option.bind_some, sessionById_crowd _ hsession]
  | segment =>
    have hfind : (crowd db m z h.titleIndex).segments.find? (·.id = id) =
        db.segments.find? (·.id = id) := find?_cons_unused rfl hid
    simp only [rowOf, hfind]
    cases hseg : db.segments.find? (·.id = id) with
    | none => rfl
    | some seg =>
      have hsession : seg.session_id ≠ z := by
        rintro rfl
        exact h.segmentSession (List.mem_map.mpr ⟨seg, List.mem_of_find?_eq_some hseg, rfl⟩)
      simp only [Option.bind_some, sessionById_crowd _ hsession]

theorem rowOf_unused (h : Unused db m z) (tier : SourceType) : rowOf w db tier z = none := by
  cases tier with
  | title => simp [rowOf, sessionById, find?_unused h.session]
  | note => simp [rowOf, find?_unused h.note]
  | segment => simp [rowOf, find?_unused h.segment]

theorem rowOf_crowd_self (hz : z ∉ db.sessionsFts m) (tier : SourceType) :
    rowOf w (crowd db m z hz) tier z = some (crowdHit w z tier) := by
  cases tier <;>
    simp [rowOf, crowd, crowdHit, sessionById, orUntitled, SegmentRow.shown]

theorem tierRows_crowd (h : Unused db m z) (tier : SourceType) :
    tierRows w (crowd db m z h.titleIndex) m tier = crowdHit w z tier :: tierRows w db m tier := by
  rw [tierRows_eq, indexOf_crowd, decide_eq_true rfl, if_pos rfl,
    List.filterMap_cons_some (rowOf_crowd_self h.titleIndex tier), tierRows_eq]
  refine congrArg _ (List.filterMap_congr (fun id hid => rowOf_crowd h tier ?_))
  rintro rfl
  cases tier with
  | title => exact h.titleIndex hid
  | note => exact h.noteIndex hid
  | segment => exact h.segmentIndex hid

theorem agree_crowd (h : Unused db m z) (hz : inScope allowed z = false) :
    Agree w allowed db (crowd db m z h.titleIndex) := by
  have hne : ∀ id, inScope allowed id = true → id ≠ z := by
    rintro id hid rfl
    exact absurd (hid.symm.trans hz) (by decide)
  have horder : ∀ m' tier, (tierRows w (crowd db m z h.titleIndex) m' tier).filter
      (inScope allowed ·.sessionId) = (tierRows w db m' tier).filter
        (inScope allowed ·.sessionId) := by
    intro m' tier
    rw [tierRows_eq, tierRows_eq, indexOf_crowd]
    refine filterMap_crowd (fun id hid => rowOf_crowd h tier hid) (rowOf_unused h tier) ?_ _
    rw [rowOf_crowd_self]
    cases tier <;> simpa [crowdHit] using hz
  exact
    { sessions := fun id hid => sessionById_crowd _ (hne id hid)
      notes := fun id hid => filter_cons_unused rfl (hne id hid)
      segments := fun id hid => filter_cons_unused rfl (hne id hid)
      folders := rfl
      filings := fun _ _ => rfl
      names := fun _ _ => rfl
      titleOrder := fun m' => horder m' .title
      noteOrder := fun m' => horder m' .note
      segmentOrder := fun m' => horder m' .segment }

/-- The crowd moves every listed row. -/
theorem listing_crowd (h : Unused db m z) (hz : inScope allowed z = false)
    (hm : toFts5Match (Texts.trim isSpace arg) = some m)
    (hsome : listing w db allowed arg filters limitArg ≠ []) :
    listing w (crowd db m z h.titleIndex) allowed arg filters limitArg ≠
      listing w db allowed arg filters limitArg := by
  intro hsame
  obtain ⟨c, hc⟩ := List.exists_mem_of_ne_nil _ hsome
  have hc' := hc
  rw [← hsame] at hc'
  rw [listing_eq] at hc hc'
  obtain ⟨r, hr, rfl⟩ := List.mem_map.mp hc
  obtain ⟨r', hr', hlisted⟩ := List.mem_map.mp hc'
  have hr := List.mem_of_mem_take hr
  obtain ⟨hin, hkept'⟩ := List.mem_filter.mp (mem_of_mem_firsts (List.mem_of_mem_take hr'))
  obtain ⟨hrow', heligible'⟩ := List.mem_filter.mp hin
  obtain ⟨_, hkept⟩ := List.mem_filter.mp (mem_of_mem_firsts hr)
  have hsession : r'.session = r.session := congrArg (·.session_id) hlisted
  have htier : r'.tier = r.tier := congrArg (·.source_type) hlisted
  have hscore : score r'.rank r'.tier.tier = score r.rank r.tier.tier :=
    congrArg (·.score) hlisted
  have hrank : r'.rank = r.rank := by
    rw [(score_kept hkept).1, (score_kept hkept').1, htier] at hscore
    omega
  have heligible : eligible db allowed filters r'.session = true :=
    (eligible_agree (agree_crowd (w := w) h hz) r'.session).symm.trans heligible'
  rw [mem_rows hm, tierRows_crowd h] at hrow'
  cases hpos : r'.rank with
  | zero =>
    rw [hpos, List.getElem?_cons_zero] at hrow'
    have hid : r'.session = z := by
      rw [Ranked.session, ← Option.some.inj hrow']
      cases r'.tier <;> rfl
    rw [eligible, hid, hz, Bool.false_and] at heligible
    exact Bool.false_ne_true heligible
  | succ k =>
    rw [hpos, List.getElem?_cons_succ] at hrow'
    have hmem : (⟨r'.tier, r'.hit, k⟩ : Ranked) ∈ (((rows w db (Texts.trim isSpace arg)).filter
        (eligible db allowed filters ∘ Ranked.session)).filter Ranked.kept) := by
      refine List.mem_filter.mpr ⟨List.mem_filter.mpr ⟨(mem_rows hm).mpr hrow', heligible⟩, ?_⟩
      have hlt : r'.rank < r'.tier.limit := of_decide_eq_true hkept'
      exact decide_eq_true (by simp only; omega)
    obtain heq | hlt | ⟨_, hlt⟩ := first_before ((rows_pairwise _).sublist
      (List.filter_sublist.trans List.filter_sublist)) hr hmem hsession
    · have : k = r.rank := congrArg Ranked.rank heq
      omega
    · have : r.tier.tier < r'.tier.tier := hlt
      rw [htier] at this
      exact absurd this (Nat.lt_irrefl _)
    · have : r.rank < k := hlt
      omega

/-- What is seen of a scope is the same in every database that agrees on it. -/
def Confined (w : Wording F N) (db : Db F N) (allowed : Option (List String)) (arg : List Char)
    (filters : Option Filters) (limitArg : Option ℚ) : Prop :=
  ∀ db', Agree w allowed db db' →
    searchSessions w db' allowed arg filters limitArg =
      searchSessions w db allowed arg filters limitArg ∧
    ∀ sessionIds scope, getSessionContext w db' allowed sessionIds scope =
      getSessionContext w db allowed sessionIds scope

theorem searchSessions_listing (w : Wording F N) (db : Db F N) (allowed : Option (List String))
    (arg : List Char) (filters : Option Filters) (limitArg : Option ℚ) :
    searchSessions w db allowed arg filters limitArg =
      if Texts.trim isSpace arg = [] then
        .error "Error: search_sessions requires a non-empty query."
      else .ok (listing w db allowed arg filters limitArg) := by
  split
  · next harg => rw [searchSessions, if_pos harg]
  · next harg =>
    rw [listing, searchSessions_eq harg]
    rfl

/-- Without a scope the two databases are searched alike. -/
theorem listing_unscoped (h : Agree w none db db') :
    listing w db' none arg filters limitArg = listing w db none arg filters limitArg := by
  have hin : ∀ id, inScope none id = true := fun _ => rfl
  have hall : ∀ l : List SearchResult, l.filter (inScope none ·.sessionId) = l :=
    fun l => List.filter_eq_self.mpr (fun _ _ => rfl)
  have hrows : ∀ query, rows w db' query = rows w db query := by
    intro query
    rw [rows, rows]
    cases toFts5Match query with
    | none => rfl
    | some m =>
      have htitles := h.titleOrder m
      have hnotes := h.noteOrder m
      have hsegments := h.segmentOrder m
      rw [hall, hall] at htitles hnotes hsegments
      simp only [htitles, hnotes, hsegments]
  have hlisted : listed w db' = listed w db := by
    funext r
    simp only [listed, candidateOf, h.names _ (hin _), h.sessions _ (hin _), h.filings _ (hin _),
      h.folders]
  have heligible : eligible db' none filters = eligible db none filters :=
    funext (fun id => eligible_agree h id)
  rw [listing_eq, listing_eq, hrows, hlisted, heligible]

/-- A listing is complete and confined exactly when no best row is cut and, in a scope, nothing is
found; without a cut, what other sessions change are the scores. -/
theorem search_scoped_iff (w : Wording F N) (db : Db F N) (allowed : Option (List String))
    (arg : List Char) (filters : Option Filters) (limitArg : Option ℚ) :
    (Complete w db allowed arg filters limitArg ∧ Confined w db allowed arg filters limitArg ↔
      AllKept w db allowed arg filters limitArg ∧
        (allowed = none ∨ best w db allowed arg filters limitArg = [])) ∧
    ∀ db', Agree w allowed db db' →
      (∀ sessionIds scope, getSessionContext w db' allowed sessionIds scope =
        getSessionContext w db allowed sessionIds scope) ∧
      (AllKept w db allowed arg filters limitArg → AllKept w db' allowed arg filters limitArg →
        (listing w db' allowed arg filters limitArg).map SessionSearchCandidate.unscored =
          (listing w db allowed arg filters limitArg).map SessionSearchCandidate.unscored) := by
  refine ⟨⟨?_, ?_⟩, fun db' h => ⟨getSessionContext_agree h, listing_agree h⟩⟩
  · rintro ⟨hcomplete, hconfined⟩
    have hkept := complete_iff.mp hcomplete
    refine ⟨hkept, ?_⟩
    by_contra hnot
    obtain ⟨hscope, hbest⟩ := not_or.mp hnot
    obtain ⟨ids, rfl⟩ := Option.ne_none_iff_exists'.mp hscope
    obtain ⟨m, hm⟩ : ∃ m, toFts5Match (Texts.trim isSpace arg) = some m := by
      cases hm : toFts5Match (Texts.trim isSpace arg) with
      | none => exact absurd (by simp [best, ranking, rows, hm, firsts]) hbest
      | some m => exact ⟨m, rfl⟩
    obtain ⟨z, hunused, hz⟩ := exists_unused db m ids
    have hz : inScope (some ids) z = false := by simpa [inScope] using hz
    have hsome : listing w db (some ids) arg filters limitArg ≠ [] := by
      rw [listing_of_allKept hkept]
      simpa using hbest
    refine listing_crowd hunused hz hm hsome ?_
    have hsame := (hconfined _ (agree_crowd hunused hz)).1
    rw [listing, listing, hsame]
  · rintro ⟨hkept, hscope⟩
    refine ⟨complete_iff.mpr hkept, fun db' h => ⟨?_, getSessionContext_agree h⟩⟩
    rw [searchSessions_listing, searchSessions_listing]
    obtain rfl | hbest := hscope
    · rw [listing_unscoped h]
    · have hbest' : best w db' allowed arg filters limitArg = [] := by
        have hmap := best_agree arg filters limitArg h
        rw [hbest] at hmap
        exact List.map_eq_nil_iff.mp hmap
      have hkept' : AllKept w db' allowed arg filters limitArg := by
        intro r hr
        rw [hbest'] at hr
        exact absurd hr List.not_mem_nil
      rw [listing_of_allKept hkept, listing_of_allKept hkept', hbest, hbest', List.map_nil,
        List.map_nil]

def plain : Wording Unit Unit where
  folderPathString := fun _ id => id
  formatSegmentSpeaker := fun _ _ _ => "Speaker"
  stripHtml := id
  formatTime := fun _ => "0:00"
  slice := fun _ s => s

/-- Sessions that all match by their title, the shortest name first. -/
def namesakes (n : ℕ) : Db Unit Unit where
  sessions := (List.range n).map fun k => ⟨String.ofList (List.replicate k 'a'), "Plan", "", 0⟩
  notes := []
  segments := []
  folders := ()
  sessionFolders := []
  speakerNames := fun _ => ()
  sessionsFts := fun _ => (List.range n).map fun k => String.ofList (List.replicate k 'a')
  notesFts := fun _ => []
  segmentsFts := fun _ => []
  sessionsFts_nodup := by
    intro _
    refine List.nodup_range.map (fun j k hjk => ?_)
    have hlen := congrArg List.length (String.ofList_injective hjk)
    simpa using hlen

/-- The one session of the scope is the twenty-first to match by its title, and is not found. -/
theorem scope_is_crowded_out :
    ¬Complete plain (namesakes 21) (some [String.ofList (List.replicate 20 'a')])
      ['p', 'l', 'a', 'n'] none none := by
  rw [complete_iff, AllKept]
  decide +kernel

/-- With twenty sessions the search of everything is complete. -/
theorem search_scoped_iff_twenty :
    Complete plain (namesakes 20) none ['p', 'l', 'a', 'n'] none none :=
  ((search_scoped_iff plain (namesakes 20) none ['p', 'l', 'a', 'n'] none none).1.mpr
    ⟨by rw [AllKept]; decide +kernel, .inl rfl⟩).1

end YapStack.Tools.Retrieval
