import YapStack.Foundation.JsStrings
import YapStack.Foundation.Regex

namespace YapStack.Citations

open JsStrings Regex

def range (lo hi : Char) (c : ℕ) : Bool := decide (unit lo ≤ c ∧ c ≤ unit hi)

def oneOf (chars : List Char) (c : ℕ) : Bool := (chars.map unit).contains c

/-- `\d` -/
def isDigit : ℕ → Bool := range '0' '9'

/-- `[0-9a-f]` in either case. -/
def isHex (c : ℕ) : Bool := isDigit c || range 'a' 'f' c || range 'A' 'F' c

/-- `\w` -/
def isWord (c : ℕ) : Bool := isDigit c || range 'a' 'z' c || range 'A' 'Z' c || oneOf ['_'] c

/-- `\s` -/
def isSpace (c : ℕ) : Bool :=
  decide (9 ≤ c ∧ c ≤ 13) || decide (0x2000 ≤ c ∧ c ≤ 0x200A) ||
    [0x20, 0xA0, 0x1680, 0x2028, 0x2029, 0x202F, 0x205F, 0x3000, 0xFEFF].contains c

def isDash : ℕ → Bool := oneOf ['-']

def isId (c : ℕ) : Bool := isHex c || isDash c

def trim (text : JsString) : JsString :=
  ((text.dropWhile isSpace).reverse.dropWhile isSpace).reverse

/-- `*` -/
def star (p : ℕ → Bool) : Re ℕ := .many true 0 none p

/-- `+` -/
def plus (p : ℕ → Bool) : Re ℕ := .many true 1 none p

def between (lo hi : ℕ) (p : ℕ → Bool) : Re ℕ := .many true lo (some hi) p

def sign (c : Char) : Re ℕ := .unit (oneOf [c])

/-- A word in either case. -/
def letters : List Char → Re ℕ
  | [] => .empty
  | c :: rest => .seq (.unit (oneOf [c, c.toUpper])) (letters rest)

/-- `\b` -/
def wordEdge : Re ℕ := .look fun b n => b.any isWord != n.any isWord

def notAhead (p : ℕ → Bool) : Re ℕ := .look fun _ n => !n.any p

def atStart : Re ℕ := .look fun b _ => b.isNone

def atEnd : Re ℕ := .look fun _ n => n.isNone

/-- `\b(seg(?:ment)?)\s*[:_]` -/
def MARKER (n : ℕ) : Re ℕ :=
  .seq wordEdge (.seq (.group n (.seq (letters ['s', 'e', 'g'])
    (opt (letters ['m', 'e', 'n', 't'])))) (.seq (star isSpace) (.unit (oneOf [':', '_']))))

/-- `(?:\[\[|\[|\()` -/
def OPEN : Re ℕ := .alt (.seq (sign '[') (sign '[')) (.alt (sign '[') (sign '('))

/-- `OPEN\s*MARKER`, how a bracketed marker begins. -/
def HEAD (n : ℕ) : Re ℕ := .seq OPEN (.seq (star isSpace) (MARKER n))

/-- `:\d{2}` -/
def TIME_PART : Re ℕ := .seq (sign ':') (between 2 2 isDigit)

/-- `\d{1,2}(?::\d{2}){1,2}\b` -/
def TIME_SRC : Re ℕ :=
  .seq (.seq (between 1 2 isDigit) (.seq TIME_PART (opt TIME_PART))) wordEdge

/-- `[^\[\]()<>\n]` -/
def inBody (c : ℕ) : Bool := !oneOf ['[', ']', '(', ')', '<', '>', '\n'] c

/-- `(?:\]\]|\]|\))` -/
def CLOSE : Re ℕ := .alt (.seq (sign ']') (sign ']')) (.alt (sign ']') (sign ')'))

def CLOSED : Re ℕ :=
  .seq (HEAD 1) (.seq (.group 2 (.many false 0 (some 200) inBody)) (.seq (star isSpace) CLOSE))

/-- ``[A-Za-z0-9_\-.…?:"'`]`` -/
def inOpenBody (c : ℕ) : Bool := isWord c || oneOf ['-', '.', '…', '?', ':', '"', '\'', '`'] c

def UNCLOSED : Re ℕ :=
  .seq (HEAD 3) (.seq (star isSpace)
    (.group 4 (.seq (star inOpenBody) (opt (.seq (plus isSpace) TIME_SRC)))))

/-- `\bseg[:_]([0-9a-f][0-9a-f-]{5,})` -/
def BARE_ID : Re ℕ :=
  .seq wordEdge (.seq (letters ['s', 'e', 'g']) (.seq (.unit (oneOf [':', '_']))
    (.group 5 (.seq (.unit isHex) (.many true 5 none isId)))))

/-- `BARE_ID(?![\w-])(?:\]{1,2})?` -/
def BARE : Re ℕ :=
  .seq (.seq BARE_ID (notAhead fun c => isWord c || isDash c)) (opt (between 1 2 (oneOf [']'])))

def MARKER_REGEX : Re ℕ := .alt CLOSED (.alt UNCLOSED BARE)

/-- `^(?:(\d{1,2}):)?(\d{1,2}):(\d{2})$` -/
def TIME : Re ℕ :=
  .seq atStart (.seq (opt (.seq (.group 1 (between 1 2 isDigit)) (sign ':')))
    (.seq (.group 2 (between 1 2 isDigit)) (.seq (sign ':')
      (.seq (.group 3 (between 2 2 isDigit)) atEnd))))

/-- `(?:^|\s)((?:\d{1,2}:)?\d{1,2}:\d{2})(?=\s|$)` -/
def TIME_IN_TEXT : Re ℕ :=
  .seq (.alt atStart (.unit isSpace)) (.seq
    (.group 1 (.seq (opt (.seq (between 1 2 isDigit) (sign ':')))
      (.seq (between 1 2 isDigit) TIME_PART)))
    (notAhead fun c => !isSpace c))

/-- `[,;]|\s+and\s+` -/
def ITEM_SPLIT : Re ℕ :=
  .alt (.unit (oneOf [',', ';']))
    (.seq (plus isSpace) (.seq (letters ['a', 'n', 'd']) (plus isSpace)))

/-- `^\s*seg(?:ment)?\s*[:_]\s*` -/
def ITEM_MARKER : Re ℕ :=
  .seq atStart (.seq (star isSpace) (.seq (letters ['s', 'e', 'g'])
    (.seq (opt (letters ['m', 'e', 'n', 't'])) (.seq (star isSpace)
      (.seq (.unit (oneOf [':', '_'])) (star isSpace))))))

/-- ``["'`‘’“”]`` -/
def isQuote : ℕ → Bool := oneOf ['"', '\'', '`', '‘', '’', '“', '”']

/-- `^[0-9a-f][0-9a-f-]{5,}` -/
def ID_LIKE : Re ℕ := .seq atStart (.seq (.unit isHex) (.many true 5 none isId))

/-- `^[\s,;]*$` -/
def RUN_GAP : Re ℕ :=
  .seq atStart (.seq (star fun c => isSpace c || oneOf [',', ';'] c) atEnd)

/-- `Number` of decimal digits. -/
def number (digits : JsString) : ℕ := digits.foldl (fun n c => 10 * n + (c - unit '0')) 0

def parseTimestamp (text : JsString) : Option ℕ :=
  (search TIME (trim text)).bind fun m =>
    let ss := number ((m.value 3).getD [])
    if ss > 59 then none
    else some (((m.value 1).map number).getD 0 * 3600 + number ((m.value 2).getD []) * 60 + ss)

inductive CitationToken where
  | segment (segmentId : JsString) (atSeconds : Option ℕ)
  | time (atSeconds : ℕ)
  deriving DecidableEq

def parseItem (raw : JsString) : CitationToken :=
  let unmarked := ((search ITEM_MARKER raw).map fun m => raw.drop m.stop).getD raw
  let item := trim (unmarked.filter (!isQuote ·))
  match parseTimestamp item with
  | some asTime => .time asTime
  | none =>
    let segmentId := item.takeWhile fun c => isWord c || isDash c
    let timeText := (search TIME_IN_TEXT (item.drop segmentId.length)).bind (·.value 1)
    .segment segmentId (timeText.bind parseTimestamp)

structure CitationMarker where
  start : ℕ
  stop : ℕ
  tokens : List CitationToken
  deriving DecidableEq

structure ParsedCitation where
  start : ℕ
  stop : ℕ
  tokens : List CitationToken
  markers : List CitationMarker
  deriving DecidableEq

/-- A match of the expression as a marker. Only with an ID or a timestamp is a "segment" one. -/
def toMarker (m : Match ℕ) : Option CitationMarker :=
  let word := ((m.value 1).or (m.value 3)).getD (['s', 'e', 'g'].map unit)
  let body := ((m.value 2).or ((m.value 4).or (m.value 5))).getD []
  let value := trim (body.filter (!isQuote ·))
  if word.length > 3 ∧ test ID_LIKE value = false ∧ parseTimestamp value = none then none
  else some ⟨m.start, m.stop, (split ITEM_SPLIT body).map parseItem⟩

def slice (text : JsString) (start stop : ℕ) : JsString := (text.drop start).take (stop - start)

/-- A marker joins the run before it when only a gap stands between them. -/
def addMarker (text : JsString) (runs : List ParsedCitation) (m : CitationMarker) :
    List ParsedCitation :=
  match runs.getLast? with
  | none => [⟨m.start, m.stop, m.tokens, [m]⟩]
  | some prev =>
    if test RUN_GAP (slice text prev.stop m.start) then
      runs.dropLast ++ [⟨prev.start, m.stop, prev.tokens ++ m.tokens, prev.markers ++ [m]⟩]
    else runs ++ [⟨m.start, m.stop, m.tokens, [m]⟩]

def parseCitations (text : JsString) : List ParsedCitation :=
  ((matchAll MARKER_REGEX text).filterMap toMarker).foldl (addMarker text) []

/-- The markers of all runs. -/
def markersOf (text : JsString) : List CitationMarker :=
  (parseCitations text).flatMap (·.markers)

theorem addMarker_markers (text : JsString) (runs : List ParsedCitation) (m : CitationMarker) :
    (addMarker text runs m).flatMap (·.markers) = runs.flatMap (·.markers) ++ [m] := by
  rw [addMarker]
  cases h : runs.getLast? with
  | none =>
    rw [List.getLast?_eq_none_iff] at h
    simp [h]
  | some prev =>
    have hruns : runs.dropLast ++ [prev] = runs := List.dropLast_append_getLast? prev h
    dsimp only
    split
    · conv_rhs => rw [← hruns]
      simp
    · simp

theorem foldl_addMarker (text : JsString) (markers : List CitationMarker)
    (runs : List ParsedCitation) :
    (markers.foldl (addMarker text) runs).flatMap (·.markers) =
      runs.flatMap (·.markers) ++ markers := by
  induction markers generalizing runs with
  | nil => simp
  | cons m markers ih =>
    rw [List.foldl_cons, ih, addMarker_markers, List.append_assoc]
    rfl

theorem markersOf_eq (text : JsString) :
    markersOf text = (matchAll MARKER_REGEX text).filterMap toMarker := by
  rw [markersOf, parseCitations, foldl_addMarker]
  rfl

end YapStack.Citations
