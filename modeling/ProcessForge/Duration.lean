import ProcessForge.Failure
import ProcessForge.Number.Binary64
import ProcessForge.Text.Blank
import ProcessForge.Text.Digit

/-! Durations of timers: the letter P, numbers with a letter behind each, and a letter T in front of
    the parts below a day. A reader takes the parts in their fixed order, each at most once. -/

namespace ProcessForge

/-- The parts of a duration as rows of digits. -/
structure Duration where
  weeks : Option (List Char) := none
  years : Option (List Char) := none
  months : Option (List Char) := none
  days : Option (List Char) := none
  hours : Option (List Char) := none
  minutes : Option (List Char) := none
  seconds : Option (List Char × List Char) := none
  deriving DecidableEq, Repr, Inhabited

namespace Duration

/-- A part: digits and its letter. Without one nothing is consumed. -/
def readPart (letter : Char) (cs : List Char) : Option (List Char) × List Char :=
  let digits := cs.takeWhile Text.isDigit
  match cs.dropWhile Text.isDigit with
  | c :: rest => if c == letter && !digits.isEmpty then (some digits, rest) else (none, cs)
  | [] => (none, cs)

/-- Seconds: digits, a fraction if there is one, and the letter S. -/
def readSeconds (cs : List Char) : Option (List Char × List Char) × List Char :=
  let digits := cs.takeWhile Text.isDigit
  if digits.isEmpty then (none, cs)
  else match cs.dropWhile Text.isDigit with
    | 'S' :: rest => (some (digits, []), rest)
    | '.' :: rest =>
      let fraction := rest.takeWhile Text.isDigit
      match rest.dropWhile Text.isDigit with
      | 'S' :: after => if fraction.isEmpty then (none, cs) else (some (digits, fraction), after)
      | _ => (none, cs)
    | _ => (none, cs)

def readTime (d : Duration) (cs : List Char) : Duration × List Char :=
  let (hours, cs) := readPart 'H' cs
  let (minutes, cs) := readPart 'M' cs
  let (seconds, cs) := readSeconds cs
  ({ d with hours := hours, minutes := minutes, seconds := seconds }, cs)

def readParts (cs : List Char) : Duration × List Char :=
  let (weeks, cs) := readPart 'W' cs
  let (years, cs) := readPart 'Y' cs
  let (months, cs) := readPart 'M' cs
  let (days, cs) := readPart 'D' cs
  let d : Duration := { weeks := weeks, years := years, months := months, days := days }
  match cs with
  | 'T' :: cs => readTime d cs
  | cs => (d, cs)

/-- The duration that a text spells, but for a line feed at its end. -/
def ofChars? : List Char → Option Duration
  | 'P' :: cs =>
    match readParts cs with
    | (d, []) => some d
    | (d, ['\n']) => some d
    | _ => none
  | _ => none

/-- Whether weeks do not stand together with other parts. -/
def weeksAlone (d : Duration) (cs : List Char) : Bool :=
  match d.weeks with
  | none => true
  | some digits =>
    let written := 'P' :: digits ++ ['W']
    cs == written || cs == written ++ ['\n']

/-- Whether a text is a duration that a timer may have. -/
def isValid (s : String) : Bool := s != "" && s != "P" && s != "PT" && s.toList.getLast? != some 'T'
    && match ofChars? s.toList with
      | some d => d.weeksAlone s.toList
      | none => false

/-! ### Milliseconds -/

/-- Value of a part. Rows of more than 4300 digits are not read. -/
def partValue (digits : Option (List Char)) : Except Failure Nat :=
  match digits with
  | none => .ok 0
  | some digits =>
    if 4300 < digits.length then .error .hugeNumber else .ok (Text.numeral digits)

/-- The seconds part as a number with a binary point. -/
def secondsValue : Option (List Char × List Char) → Binary64
  | none => Binary64.ofNat 0
  | some (whole, fraction) =>
    let digits := whole ++ fraction
    Binary64.ofDecimal false (Text.numeral digits) digits.length (-(fraction.length : Int))

/-- Length in milliseconds: the parts above a second are added exactly, the sum with the seconds and
    its thousandfold are rounded to numbers of 64 bits, and the result to the nearest whole number,
    a tie going to the even one. -/
def toMillis (d : Duration) : Except Failure Nat := do
  let weeks ← partValue d.weeks
  let days ← partValue d.days
  let hours ← partValue d.hours
  let minutes ← partValue d.minutes
  let whole := Binary64.ofNat (weeks * 7 * 86400 + days * 86400 + hours * 3600 + minutes * 60)
  let total := (whole.addMagnitude (secondsValue d.seconds)).scaleMagnitude 1000
  match total.roundMagnitude? with
  | some millis => return millis
  | none => .error .immeasurableDuration

/-- Length in milliseconds of a text. Years and months have no fixed length. -/
def millisOf (text : Option String) : Except Failure Nat :=
  match text with
  | none => .error (.invalidDuration none)
  | some s =>
    let cs := Text.trimChars s.toList
    match ofChars? cs with
    | none => .error (.invalidDuration (some s))
    | some d =>
      if cs == ['P'] || cs == ['P', 'T'] then .error (.invalidDuration (some s))
      else if d.years.isSome || d.months.isSome then .error (.calendarDuration s)
      else d.toMillis

/-- A number with at least two places; a sign counts as a place. -/
def twoPlaces (n : Int) : String :=
  let digits := toString n
  if digits.length < 2 then "0" ++ digits else digits

/-- Hours, minutes and seconds of a length in milliseconds. -/
def clock (millis : Int) : String :=
  let seconds := millis.fdiv 1000
  twoPlaces (seconds.fdiv 3600) ++ ":" ++ twoPlaces ((seconds.fmod 3600).fdiv 60) ++ ":" ++ twoPlaces (seconds.fmod 60)

end Duration

end ProcessForge
