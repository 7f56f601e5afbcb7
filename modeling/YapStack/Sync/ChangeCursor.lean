import YapStack.Sync.Change

namespace YapStack.Sync

open Codec

/-- How `decode` can fail: with an error of its own, or by a slice that is out of range. -/
inductive Fault
  | codec (e : String)
  | outOfRange
  deriving DecidableEq

/-- A read at a position of the buffer, and the position after it. -/
abbrev Cursor (α : Type) := Bytes → Nat → Except Fault (α × Nat)

/-- `buf[from..to]` -/
def slice (buf : Bytes) (start stop : Nat) : Except Fault Bytes :=
  if start ≤ stop ∧ stop ≤ buf.length then .ok ((buf.drop start).take (stop - start))
  else .error .outOfRange

def takeBytesAt : Cursor Bytes := fun buf pos =>
  if buf.length < pos + 4 then .error (.codec "truncated length")
  else do
    let len := Bytes.ofBe (← slice buf pos (pos + 4))
    let pos := pos + 4
    if buf.length < pos + len then .error (.codec "truncated bytes")
    else return (← slice buf pos (pos + len), pos + len)

def takeI64At : Cursor Int64 := fun buf pos =>
  if buf.length < pos + 8 then .error (.codec "truncated i64")
  else do
    return ((UInt64.ofNat (Bytes.ofBe (← slice buf pos (pos + 8)))).toInt64, pos + 8)

def takeU8At : Cursor UInt8 := fun buf pos =>
  if buf.length < pos + 1 then .error (.codec "truncated u8")
  else
    match buf[pos]? with
    | none => .error .outOfRange
    | some x => .ok (x, pos + 1)

def takeTextAt (notUtf8 : String) : Cursor String := fun buf pos => do
  let (b, pos) ← takeBytesAt buf pos
  match Bytes.fromUtf8 b with
  | none => .error (.codec notUtf8)
  | some s => .ok (s, pos)

def takeValueAt : Cursor Value := fun buf pos => do
  let (tag, pos) ← takeU8At buf pos
  if tag = 0 then return (.null, pos)
  else if tag = 1 then
    let (i, pos) ← takeI64At buf pos
    return (.integer i, pos)
  else if tag = 2 then
    let (i, pos) ← takeI64At buf pos
    return (.real i.toUInt64, pos)
  else if tag = 3 then
    let (s, pos) ← takeTextAt "text not utf8" buf pos
    return (.text s, pos)
  else if tag = 4 then
    let (b, pos) ← takeBytesAt buf pos
    return (.blob b, pos)
  else .error (.codec ("bad value tag " ++ toString tag.toNat))

def takeSiteAt : Cursor (Option Bytes) := fun buf pos => do
  let (tag, pos) ← takeU8At buf pos
  if tag = 0 then return (none, pos)
  else if tag = 1 then
    let (b, pos) ← takeBytesAt buf pos
    return (some b, pos)
  else .error (.codec ("bad site tag " ++ toString tag.toNat))

def takeRowAt : Cursor ChangeRow := fun buf pos => do
  let (table, pos) ← takeTextAt "table not utf8" buf pos
  let (pk, pos) ← takeBytesAt buf pos
  let (cid, pos) ← takeTextAt "cid not utf8" buf pos
  let (val, pos) ← takeValueAt buf pos
  let (colVersion, pos) ← takeI64At buf pos
  let (dbVersion, pos) ← takeI64At buf pos
  let (siteId, pos) ← takeSiteAt buf pos
  let (cl, pos) ← takeI64At buf pos
  let (seq, pos) ← takeI64At buf pos
  return (⟨table, pk, cid, val, colVersion, dbVersion, siteId, cl, seq⟩, pos)

def takeRowsAt : Nat → Cursor (List ChangeRow)
  | 0 => fun _ pos => .ok ([], pos)
  | count + 1 => fun buf pos => do
    let (row, pos) ← takeRowAt buf pos
    let (rows, pos) ← takeRowsAt count buf pos
    return (row :: rows, pos)

/-- `Changeset::decode`, slice by slice. -/
def Changeset.decodeAt (buf : Bytes) : Except Fault Changeset :=
  if buf.length < 4 then .error (.codec "truncated header")
  else do
    let n := Bytes.ofBe (← slice buf 0 4)
    let (rows, _) ← takeRowsAt n buf 4
    return ⟨rows⟩

variable {α β : Type} {buf : Bytes} {pos : Nat}

/-- A read at a position does what the reader does with the bytes from there. -/
def Follows (buf : Bytes) (x : Except Fault (α × Nat)) (y : Except String (α × Bytes)) : Prop :=
  match x, y with
  | .error f, .error e => f = .codec e
  | .ok (a, pos), .ok (a', rest) => a = a' ∧ pos ≤ buf.length ∧ rest = buf.drop pos
  | _, _ => False

theorem Follows.bind {x : Except Fault (α × Nat)} {y : Except String (α × Bytes)}
    {f : α × Nat → Except Fault (β × Nat)} {g : α × Bytes → Except String (β × Bytes)}
    (h : Follows buf x y)
    (hf : ∀ a pos, pos ≤ buf.length → Follows buf (f (a, pos)) (g (a, buf.drop pos))) :
    Follows buf (x.bind f) (y.bind g) := by
  cases x with
  | error e =>
    cases y with
    | error e' => exact h
    | ok q => exact h.elim
  | ok p =>
    cases y with
    | error e' => exact h.elim
    | ok q =>
      obtain ⟨heq, hpos, hrest⟩ := h
      obtain ⟨a, pos⟩ := p
      obtain ⟨a', rest⟩ := q
      dsimp only at heq hpos hrest
      subst heq hrest
      exact hf a pos hpos

theorem Follows.ok (a : α) (hpos : pos ≤ buf.length) :
    Follows buf (.ok (a, pos)) (.ok (a, buf.drop pos)) :=
  ⟨rfl, hpos, rfl⟩

theorem Follows.map {x : Except Fault (α × Nat)} {y : Except String (α × Bytes)} {f : α → β}
    (h : Follows buf x y) :
    Follows buf (x.bind (fun p => .ok (f p.1, p.2))) (y.map (fun q => (f q.1, q.2))) := by
  have hbind := h.bind (f := fun p => .ok (f p.1, p.2)) (g := fun q => .ok (f q.1, q.2))
    (fun a pos hpos => Follows.ok (f a) hpos)
  cases y <;> exact hbind

theorem slice_ok {n : Nat} (h : pos + n ≤ buf.length) :
    slice buf pos (pos + n) = .ok ((buf.drop pos).take n) := by
  rw [slice, if_pos ⟨Nat.le_add_right pos n, h⟩, Nat.add_sub_cancel_left]

theorem takeBytesAt_follows (hpos : pos ≤ buf.length) :
    Follows buf (takeBytesAt buf pos) (takeBytes (buf.drop pos)) := by
  simp only [takeBytesAt, takeBytes, takeBlock, takeBe, takeExact, List.length_drop]
  by_cases hlen : buf.length < pos + 4
  · rw [if_pos hlen, if_pos (by omega)]
    rfl
  · rw [if_neg hlen, if_neg (by omega), slice_ok (by omega)]
    simp only [Except.map, Except.bind, bind, List.drop_drop, List.length_drop]
    by_cases hbytes : buf.length < pos + 4 + Bytes.ofBe ((buf.drop pos).take 4)
    · rw [if_pos hbytes, if_pos (by omega)]
      rfl
    · rw [if_neg hbytes, if_neg (by omega), slice_ok (by omega)]
      exact ⟨rfl, by omega, rfl⟩

theorem takeI64At_follows (hpos : pos ≤ buf.length) :
    Follows buf (takeI64At buf pos) (takeI64 (buf.drop pos)) := by
  simp only [takeI64At, takeI64, takeBe, takeExact, List.length_drop]
  by_cases hlen : buf.length < pos + 8
  · rw [if_pos hlen, if_pos (by omega)]
    rfl
  · rw [if_neg hlen, if_neg (by omega), slice_ok (by omega)]
    exact ⟨rfl, by omega, by rw [List.drop_drop]⟩

theorem takeU8At_follows (hpos : pos ≤ buf.length) :
    Follows buf (takeU8At buf pos) (takeU8 (buf.drop pos)) := by
  simp only [takeU8At]
  by_cases hlen : buf.length < pos + 1
  · rw [if_pos hlen, List.drop_eq_nil_of_le (by omega)]
    rfl
  · have hget : pos < buf.length := by omega
    rw [if_neg hlen, List.getElem?_eq_getElem hget, List.drop_eq_getElem_cons hget]
    exact ⟨rfl, by omega, rfl⟩

theorem takeTextAt_follows (e : String) (hpos : pos ≤ buf.length) :
    Follows buf (takeTextAt e buf pos) (takeText e (buf.drop pos)) := by
  refine (takeBytesAt_follows hpos).bind (fun b pos hpos => ?_)
  dsimp only
  cases Bytes.fromUtf8 b with
  | none => rfl
  | some s => exact Follows.ok s hpos

theorem takeValueAt_follows (hpos : pos ≤ buf.length) :
    Follows buf (takeValueAt buf pos) (takeValue (buf.drop pos)) := by
  refine (takeU8At_follows hpos).bind (fun tag pos hpos => ?_)
  dsimp only
  by_cases h0 : tag = 0
  · rw [if_pos h0, if_pos h0]
    exact Follows.ok Value.null hpos
  rw [if_neg h0, if_neg h0]
  by_cases h1 : tag = 1
  · rw [if_pos h1, if_pos h1]
    exact (takeI64At_follows hpos).map
  rw [if_neg h1, if_neg h1]
  by_cases h2 : tag = 2
  · rw [if_pos h2, if_pos h2]
    exact (takeI64At_follows hpos).map (f := fun i => Value.real i.toUInt64)
  rw [if_neg h2, if_neg h2]
  by_cases h3 : tag = 3
  · rw [if_pos h3, if_pos h3]
    exact (takeTextAt_follows _ hpos).map
  rw [if_neg h3, if_neg h3]
  by_cases h4 : tag = 4
  · rw [if_pos h4, if_pos h4]
    exact (takeBytesAt_follows hpos).map
  rw [if_neg h4, if_neg h4]
  rfl

theorem takeSiteAt_follows (hpos : pos ≤ buf.length) :
    Follows buf (takeSiteAt buf pos) (takeSite (buf.drop pos)) := by
  refine (takeU8At_follows hpos).bind (fun tag pos hpos => ?_)
  dsimp only
  by_cases h0 : tag = 0
  · rw [if_pos h0, if_pos h0]
    exact Follows.ok none hpos
  rw [if_neg h0, if_neg h0]
  by_cases h1 : tag = 1
  · rw [if_pos h1, if_pos h1]
    exact (takeBytesAt_follows hpos).map
  rw [if_neg h1, if_neg h1]
  rfl

theorem takeRowAt_follows (hpos : pos ≤ buf.length) :
    Follows buf (takeRowAt buf pos) (takeRow (buf.drop pos)) := by
  refine (takeTextAt_follows _ hpos).bind (fun table pos hpos => ?_)
  refine (takeBytesAt_follows hpos).bind (fun pk pos hpos => ?_)
  refine (takeTextAt_follows _ hpos).bind (fun cid pos hpos => ?_)
  refine (takeValueAt_follows hpos).bind (fun val pos hpos => ?_)
  refine (takeI64At_follows hpos).bind (fun colVersion pos hpos => ?_)
  refine (takeI64At_follows hpos).bind (fun dbVersion pos hpos => ?_)
  refine (takeSiteAt_follows hpos).bind (fun siteId pos hpos => ?_)
  refine (takeI64At_follows hpos).bind (fun cl pos hpos => ?_)
  refine (takeI64At_follows hpos).bind (fun seq pos hpos => ?_)
  exact Follows.ok _ hpos

theorem takeRowsAt_follows (count : Nat) (hpos : pos ≤ buf.length) :
    Follows buf (takeRowsAt count buf pos) (takeMany takeRow count (buf.drop pos)) := by
  induction count generalizing pos with
  | zero => exact Follows.ok [] hpos
  | succ count ih =>
    refine (takeRowAt_follows hpos).bind (fun row pos hpos => ?_)
    exact (ih hpos).map

/-- No slice of the decoder is out of range. -/
theorem decodeAt_eq (b : Bytes) : Changeset.decodeAt b = (Changeset.decode b).mapError .codec := by
  simp only [Changeset.decodeAt, Changeset.decode, takeBe, takeExact]
  by_cases hlen : b.length < 4
  · rw [if_pos hlen, if_pos hlen]
    rfl
  · have hslice : slice b 0 (0 + 4) = .ok ((b.drop 0).take 4) := slice_ok (by omega)
    rw [if_neg hlen, if_neg hlen, show slice b 0 4 = _ from hslice]
    have hrows := takeRowsAt_follows (Bytes.ofBe (b.take 4)) (show 4 ≤ b.length by omega)
    simp only [Except.map, Except.bind, bind, pure, Except.pure, List.drop_zero]
    cases hx : takeRowsAt (Bytes.ofBe (b.take 4)) b 4 with
    | error f =>
      cases hy : takeMany takeRow (Bytes.ofBe (b.take 4)) (b.drop 4) with
      | error e =>
        rw [hx, hy] at hrows
        exact congrArg Except.error hrows
      | ok q =>
        rw [hx, hy] at hrows
        exact hrows.elim
    | ok p =>
      cases hy : takeMany takeRow (Bytes.ofBe (b.take 4)) (b.drop 4) with
      | error e =>
        rw [hx, hy] at hrows
        exact hrows.elim
      | ok q =>
        rw [hx, hy] at hrows
        exact congrArg (fun rows => Except.ok (Changeset.mk rows)) hrows.1

end YapStack.Sync
