import ProcessForge.Text.Range

/-! Letter case for all scripts. Most letters map to one letter at a fixed distance, and letters with
    the same distance stand in runs, so a table of runs gives the map. A few letters map to several
    characters. A capital sigma at the end of a word has a small form of its own. -/

namespace ProcessForge.Text

/-- A run of letters, `step` apart, whose other case is `shift` code points away. -/
structure CaseRun where
  first : Nat
  last : Nat
  step : Nat
  shift : Int

def CaseRun.holds (run : CaseRun) (point : Nat) : Bool :=
  run.first ≤ point && point ≤ run.last && (point - run.first) % run.step == 0

/-- Runs that are written by their gaps: how far the first letter is from the end of the run before, how many letters
    follow it, and the step and the shift of the run. -/
def runsFrom (start : Nat) : List (Nat × Nat × Nat × Int) → List CaseRun
  | [] => []
  | (gap, more, step, shift) :: rest =>
    ⟨start + gap, start + gap + more * step, step, shift⟩ :: runsFrom (start + gap + more * step) rest

def lowerRuns : List CaseRun := runsFrom 0 [(65,25,1,32),(102,22,1,32),(2,6,1,32),(34,23,2,1),(4,2,2,1),(3,7,2,1),
  (3,22,2,1),(2,0,1,-121),(1,2,2,1),(4,0,1,210),(1,1,2,1),(2,0,1,206),(1,0,1,1),(2,1,1,205),(1,0,1,1),(3,0,1,79),
  (1,0,1,202),(1,0,1,203),(1,0,1,1),(2,0,1,205),(1,0,1,207),(2,0,1,211),(1,0,1,209),(1,0,1,1),(4,0,1,211),(1,0,1,213),
  (2,0,1,214),(1,2,2,1),(2,0,1,218),(1,0,1,1),(2,0,1,218),(3,0,1,1),(2,0,1,218),(1,0,1,1),(2,1,1,217),(1,1,2,1),
  (2,0,1,219),(1,0,1,1),(4,0,1,1),(8,0,1,2),(1,0,1,1),(2,0,1,2),(1,0,1,1),(2,0,1,2),(1,8,2,1),(3,8,2,1),(3,0,1,2),
  (1,1,2,1),(2,0,1,-97),(1,0,1,-56),(1,19,2,1),(2,0,1,-130),(2,8,2,1),(8,0,1,10795),(1,0,1,1),(2,0,1,-163),
  (1,0,1,10792),(3,0,1,1),(2,0,1,-195),(1,0,1,69),(1,0,1,71),(1,4,2,1),(290,1,2,1),(4,0,1,1),(9,0,1,116),(7,0,1,38),
  (2,2,1,37),(2,0,1,64),(2,1,1,63),(2,16,1,32),(2,8,1,32),(36,0,1,8),(9,11,2,1),(6,0,1,-60),(3,0,1,1),(2,0,1,-7),
  (1,0,1,1),(3,2,1,-130),(1,15,1,80),(1,31,1,32),(49,16,2,1),(10,26,2,1),(2,0,1,15),(1,6,2,1),(3,47,2,1),(3,37,1,48),
  (2890,37,1,7264),(2,0,1,7264),(6,0,1,7264),(723,79,1,38864),(1,5,1,8),(2203,42,1,-3008),(3,2,1,-3008),(321,74,2,1),
  (10,0,1,-7615),(2,47,2,1),(10,7,1,-8),(9,5,1,-8),(11,7,1,-8),(9,7,1,-8),(9,5,1,-8),(12,3,2,-8),(9,7,1,-8),(25,7,1,-8),
  (9,7,1,-8),(9,7,1,-8),(9,1,1,-8),(1,1,1,-74),(1,0,1,-9),(12,3,1,-86),(1,0,1,-9),(12,1,1,-8),(1,1,1,-100),(13,1,1,-8),
  (1,1,1,-112),(1,0,1,-7),(12,1,1,-128),(1,1,1,-126),(1,0,1,-9),(298,0,1,-7517),(4,0,1,-8383),(1,0,1,-8262),(7,0,1,28),
  (46,15,1,16),(20,0,1,1),(819,25,1,26),(1841,47,1,48),(49,0,1,1),(2,0,1,-10743),(1,0,1,-3814),(1,0,1,-10727),(3,2,2,1),
  (2,0,1,-10780),(1,0,1,-10749),(1,0,1,-10783),(1,0,1,-10782),(2,0,1,1),(3,0,1,1),(9,1,1,-10815),(1,49,2,1),(9,1,2,1),
  (5,0,1,1),(31054,22,2,1),(20,13,2,1),(136,6,2,1),(4,30,2,1),(11,1,2,1),(2,0,1,-35332),(1,4,2,1),(5,0,1,1),
  (2,0,1,-42280),(3,1,2,1),(4,9,2,1),(2,0,1,-42308),(1,0,1,-42319),(1,0,1,-42315),(1,0,1,-42305),(1,0,1,-42308),
  (2,0,1,-42258),(1,0,1,-42282),(1,0,1,-42261),(1,0,1,928),(1,7,2,1),(2,0,1,-48),(1,0,1,-42307),(1,0,1,-35384),
  (1,1,2,1),(7,0,1,1),(6,1,2,1),(29,0,1,1),(22316,25,1,32),(1222,39,1,40),(137,35,1,40),(157,10,1,39),(2,14,1,39),
  (2,6,1,39),(2,1,1,39),(1771,50,1,64),(3054,31,1,32),(21889,31,1,32),(31393,33,1,34)]

def CaseRun.back (run : CaseRun) : CaseRun where
  first := (run.first + run.shift).toNat
  last := (run.last + run.shift).toNat
  step := run.step
  shift := -run.shift

/-- Runs of letters with a capital form: some that are not the small form of it, and the small forms. -/
def upperRuns : List CaseRun := runsFrom 0 [(181,0,1,743),(124,0,1,-232),(78,0,1,-300),(70,0,1,-1),(3,0,1,-1),
  (3,0,1,-1),(39,0,1,-1),(339,0,1,84),(125,0,1,-31),(14,0,1,-62),(1,0,1,-57),(4,0,1,-47),(1,0,1,-54),(26,0,1,-86),
  (1,0,1,-80),(4,0,1,-96),(6283,0,1,-6254),(1,0,1,-6253),(1,0,1,-6244),(1,0,1,-6242),(1,0,1,-6242),(1,0,1,-6243),
  (1,0,1,-6236),(1,0,1,-6181),(1,0,1,35266),(531,0,1,-59),(291,0,1,-7205)] ++ lowerRuns.map CaseRun.back

/-- Greek letters with an iota below, which becomes a letter behind the capital one. They stand in rows of eight. -/
def iotaRows : List (Nat × List Nat) :=
  [(0x1F80,0x1F08),(0x1F88,0x1F08),(0x1F90,0x1F28),(0x1F98,0x1F28),(0x1FA0,0x1F68),(0x1FA8,0x1F68)].flatMap fun row =>
    (List.range 8).map fun i => (row.1 + i, [row.2 + i, 0x399])

/-- Letters whose capital form has several characters. -/
def upperExpansions : List (Nat × List Nat) := iotaRows ++ [(0xDF,[0x53,0x53]),(0x149,[0x2BC,0x4E]),
  (0x1F0,[0x4A,0x30C]),(0x390,[0x399,0x308,0x301]),(0x3B0,[0x3A5,0x308,0x301]),(0x587,[0x535,0x552]),
  (0x1E96,[0x48,0x331]),(0x1E97,[0x54,0x308]),(0x1E98,[0x57,0x30A]),(0x1E99,[0x59,0x30A]),(0x1E9A,[0x41,0x2BE]),
  (0x1F50,[0x3A5,0x313]),(0x1F52,[0x3A5,0x313,0x300]),(0x1F54,[0x3A5,0x313,0x301]),(0x1F56,[0x3A5,0x313,0x342]),
  (0x1FB2,[0x1FBA,0x399]),(0x1FB3,[0x391,0x399]),(0x1FB4,[0x386,0x399]),(0x1FB6,[0x391,0x342]),
  (0x1FB7,[0x391,0x342,0x399]),(0x1FBC,[0x391,0x399]),(0x1FC2,[0x1FCA,0x399]),(0x1FC3,[0x397,0x399]),
  (0x1FC4,[0x389,0x399]),(0x1FC6,[0x397,0x342]),(0x1FC7,[0x397,0x342,0x399]),(0x1FCC,[0x397,0x399]),
  (0x1FD2,[0x399,0x308,0x300]),(0x1FD3,[0x399,0x308,0x301]),(0x1FD6,[0x399,0x342]),(0x1FD7,[0x399,0x308,0x342]),
  (0x1FE2,[0x3A5,0x308,0x300]),(0x1FE3,[0x3A5,0x308,0x301]),(0x1FE4,[0x3A1,0x313]),(0x1FE6,[0x3A5,0x342]),
  (0x1FE7,[0x3A5,0x308,0x342]),(0x1FF2,[0x1FFA,0x399]),(0x1FF3,[0x3A9,0x399]),(0x1FF4,[0x38F,0x399]),
  (0x1FF6,[0x3A9,0x342]),(0x1FF7,[0x3A9,0x342,0x399]),(0x1FFC,[0x3A9,0x399]),(0xFB00,[0x46,0x46]),(0xFB01,[0x46,0x49]),
  (0xFB02,[0x46,0x4C]),(0xFB03,[0x46,0x46,0x49]),(0xFB04,[0x46,0x46,0x4C]),(0xFB05,[0x53,0x54]),(0xFB06,[0x53,0x54]),
  (0xFB13,[0x544,0x546]),(0xFB14,[0x544,0x535]),(0xFB15,[0x544,0x53B]),(0xFB16,[0x54E,0x546]),(0xFB17,[0x544,0x53D])]

/-- Letters that have a case and are not skipped in the search for the end of a word. -/
def casedRanges : List (Nat × Nat) := rangesFrom 0 [65,26,6,26,47,1,10,1,4,1,5,23,1,31,1,195,1,4,4,208,1,27,192,4,2,2,3,
  3,1,1,6,1,1,3,1,1,1,20,1,83,1,139,8,166,1,38,9,41,2839,38,1,1,5,1,2,43,2,3,672,86,2,6,2178,9,7,43,2,3,64,44,63,13,1,
  34,101,278,2,6,2,38,2,6,2,8,1,1,1,1,1,1,1,31,2,53,1,7,1,1,3,3,1,7,3,4,2,6,4,13,5,3,1,7,261,1,4,1,2,10,1,1,3,5,6,1,1,1,
  1,1,1,4,1,6,4,1,2,4,5,5,4,1,17,32,3,2,817,52,1814,124,2,103,6,4,3,2,12,38,1,1,5,1,30994,46,18,28,134,78,1,23,3,4,1,59,
  5,2,1,1,1,5,27,2,3,1,821,43,5,9,7,80,20288,7,12,5,1033,26,6,26,1189,80,96,36,4,36,116,11,1,15,1,7,1,2,1,11,1,15,1,7,1,
  2,1731,51,13,51,2989,64,21856,64,25984,85,1,71,1,2,2,1,2,2,2,4,1,12,1,1,1,7,1,65,1,4,2,8,1,7,1,28,1,4,1,5,1,1,3,7,1,
  340,2,25,1,25,1,31,1,25,1,31,1,25,1,31,1,25,1,31,1,25,1,8,1844,10,1,20,2529,68,2028,26,6,26,6,26]

/-- Characters that the search for the end of a word skips. -/
def caseIgnorableRanges : List (Nat × Nat) := rangesFrom 0 [39,1,6,1,11,1,35,1,1,1,71,1,4,1,1,1,4,1,2,2,503,192,4,2,4,1,
  9,2,1,1,251,7,207,1,5,1,49,45,1,1,1,2,1,2,1,1,44,1,11,6,10,11,1,1,35,1,10,21,16,1,101,8,1,10,1,4,33,1,1,1,30,27,91,11,
  58,11,4,1,2,1,24,24,43,3,44,1,7,2,6,8,41,58,55,1,1,1,4,8,4,1,3,7,10,2,13,1,15,1,58,1,4,4,8,1,20,2,26,1,2,2,57,1,4,2,4,
  2,2,3,3,1,30,2,3,1,11,2,57,1,4,5,1,2,4,1,20,2,22,6,1,1,58,1,2,1,1,4,8,1,7,2,11,2,30,1,61,1,12,1,50,1,3,1,55,1,1,3,5,3,
  1,4,7,2,11,2,29,1,58,1,2,1,6,1,5,2,20,2,28,2,57,2,4,4,8,1,20,2,29,1,72,1,7,3,1,1,90,1,2,7,11,9,98,1,2,9,9,1,1,6,74,2,
  27,1,1,1,1,1,55,14,1,5,1,2,5,11,1,36,9,1,102,4,1,6,1,2,2,2,25,2,4,3,16,4,13,1,2,2,6,1,15,1,94,1,608,3,946,3,29,2,30,2,
  30,2,64,2,1,7,8,1,2,11,3,1,5,1,45,5,51,1,65,2,34,1,118,3,4,2,9,1,6,3,219,2,2,1,58,1,1,7,1,1,1,1,2,8,6,10,2,1,39,1,8,
  31,49,4,48,1,1,5,1,1,5,1,40,9,12,2,32,4,2,2,1,3,56,1,1,2,3,1,1,3,58,8,2,2,64,6,82,3,1,13,1,7,4,1,6,1,3,2,50,63,13,1,
  34,101,445,1,1,3,11,3,13,3,13,3,13,2,12,5,8,2,10,1,2,1,2,5,49,5,1,10,1,1,13,1,16,13,51,33,2955,2,113,3,125,1,15,1,96,
  32,47,1,469,1,36,4,3,5,5,1,93,6,93,3,28438,1,1250,6,270,1,98,4,1,10,1,1,28,4,80,2,14,34,78,1,23,3,103,3,3,2,8,1,3,1,4,
  1,25,2,5,1,151,2,26,18,13,1,38,8,25,11,46,3,48,1,2,4,2,2,17,1,21,2,66,6,2,2,2,2,12,1,8,1,35,1,11,1,51,1,1,3,2,2,5,2,1,
  1,27,1,14,2,5,2,1,1,100,5,9,3,121,1,2,1,4,1,20272,1,147,17,573,16,3,1,12,16,34,1,2,1,169,1,7,1,6,1,11,1,35,1,1,1,47,1,
  45,2,67,1,21,3,513,1,226,1,149,5,1029,6,1,42,1,9,582,3,1,2,5,4,40,3,4,1,165,2,573,4,387,2,153,11,49,4,123,1,54,15,41,
  1,2,2,10,3,49,4,2,2,2,1,4,1,10,1,50,3,36,5,1,8,62,1,12,2,52,9,10,4,2,1,95,3,2,1,1,2,6,1,160,1,3,8,21,2,57,2,3,1,37,7,
  3,5,195,8,2,3,1,1,23,1,84,6,1,1,4,2,1,2,238,4,6,2,1,2,27,2,85,8,2,1,1,2,106,1,1,1,2,6,1,1,101,3,2,4,1,5,259,9,1,2,256,
  2,1,1,4,1,144,4,2,2,4,1,32,10,40,6,2,4,8,1,9,6,2,3,46,13,1,2,406,7,1,6,1,1,82,22,2,7,1,2,1,2,122,6,3,1,1,2,1,7,1,1,72,
  2,3,1,1,1,347,2,5435,9,14007,5,59,7,9,4,1035,1,63,17,64,2,1,2,16395,4,1,7,1,2,3230,2,1,4,4700,46,2,23,544,3,9,16,2,7,
  30,4,148,3,1979,55,4,50,8,1,14,1,22,5,1,15,1360,7,1,17,2,7,1,2,1,5,261,14,368,1,61,4,1504,7,109,8,2735,5,789505,1,30,
  96,128,240]

/-- Moves a character along the run that holds it. -/
def shiftCase (runs : List CaseRun) (c : Char) : Char :=
  match runs.find? fun run => run.holds c.toNat with
  | some run => Char.ofNat (Int.toNat (c.toNat + run.shift))
  | none => c

/-- The first character that decides about the end of a word has a case. -/
def startsCased (cs : List Char) : Bool :=
  match cs.dropWhile fun c => inRanges caseIgnorableRanges c.toNat with
  | [] => false
  | c :: _ => inRanges casedRanges c.toNat

/-- Small form of one character, given what stands before it (nearest first) and after it. -/
def lowerAt (before : List Char) (c : Char) (after : List Char) : List Char :=
  if c.toNat < 128 then [c.toLower]
  else if c == 'Σ' then [if startsCased before && !startsCased after then 'ς' else 'σ']
  else if c == 'İ' then ['i', '\u0307']
  else [shiftCase lowerRuns c]

/-- Small form of a text, with the reversed text that stands before it. -/
def lowerAfter : List Char → List Char → List Char
  | _, [] => []
  | before, c :: rest => lowerAt before c rest ++ lowerAfter (c :: before) rest

def lowerChars (cs : List Char) : List Char := lowerAfter [] cs

def upperChar (c : Char) : List Char :=
  if c.toNat < 128 then [c.toUpper]
  else match upperExpansions.find? fun entry => entry.1 == c.toNat with
    | some entry => entry.2.map Char.ofNat
    | none => [shiftCase upperRuns c]

def upperChars (cs : List Char) : List Char := cs.flatMap upperChar

def lower (s : String) : String := String.ofList (lowerChars s.toList)

def upper (s : String) : String := String.ofList (upperChars s.toList)

def capitalize (s : String) : String :=
  match s.toList with
  | [] => ""
  | c :: rest => String.ofList (upperChar c ++ rest)

def uncapitalize (s : String) : String :=
  match s.toList with
  | [] => ""
  | c :: rest => String.ofList (lowerAt [] c [] ++ rest)

end ProcessForge.Text
