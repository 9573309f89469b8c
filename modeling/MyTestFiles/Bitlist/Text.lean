import MyTestFiles.Bitlist.Bitlist

/-!
# `MyTestFiles.Bitlist.Text`: the text form of bit lists

`bitlist_from_string` parses a number list into a bit list, `bitlist_to_string` prints the
next page of one into a buffer, and `bitlist_nv_write` prints all pages as command lines.
`bitlist_dump` prints a whole list in hexadecimal. A C string is the list of its characters
before the NUL.

The buffer of `bitlist_to_string` is the text in it so far, and `strcpy` appends to it where
the buffer has room for the new text with its NUL. The loops have as much fuel as the list
or the string can need.

* Parsing is a loop over items. The state has the rest of the text, the position in it, the number
  read last and the list so far, so what an error leaves behind is in the state.
* Printing is a loop over blocks. It reads ahead with the cursor of the list to see where a block
  ends, and puts the cursor back where a number has no room on the page.
* The digits go to an `int` that may wrap, and so does the length of a text.
-/

set_option autoImplicit false

namespace MyTestFiles.Bitlist

open MyTestFiles.Lib

/-! ### `bitlist_from_string` -/

/-- The errors of the parser. -/
inductive ParseError where
  | nonNumeric
  | outOfBounds
  | invRange
  | expComma
  | unexpectedEol
  deriving DecidableEq

/-- The variables of the parser. `list` is the text that is left. -/
structure ParseState where
  bl : BitlistT
  list : List Char
  number : Int
  begin : Int
  charno : Int

/-- `isdigit`, in the C locale. -/
def isDigit (c : Char) : Bool := '0' ≤ c && c ≤ '9'

/-- The digit loop: the rest of the text, the number and the character count. -/
def readNumber : List Char → Int → Int → List Char × Int × Int
  | [], number, charno => ([], number, charno)
  | c :: list, number, charno =>
      if isDigit c then
        readNumber list (int32 (number * 10 + c.toNat - '0'.toNat)) (int32 (charno + 1))
      else (c :: list, number, charno)

/-- One pass of `for (i = begin; i <= number; i++) bitlist_set(bl, i)`. -/
def setRangePass (number : Int) (s : BitlistT × Int) :
    Option (Pass (BitlistT × Int) BitlistT) :=
  let (bl, i) := s
  if i ≤ number then do
    let bl ← bitlistSet bl i
    some (.again (bl, int32 (i + 1)))
  else some (.done bl)

/-- The loop over a range. It never ends when `number` is the largest `int`. -/
def setRange (bl : BitlistT) (begin number : Int) : Option BitlistT :=
  loop (setRangePass number) ((number - begin).toNat + 2) (bl, begin)

/-- The second number of a range, after the `-`. -/
def parseRange (min max : Int) (s : ParseState) : Option (ParseState × Option ParseError) :=
  match s.list with
  | [] => some (s, some .unexpectedEol)
  | c :: _ =>
      if !isDigit c then some (s, some .nonNumeric)
      else
        let (list, number, charno) := readNumber s.list s.number s.charno
        let s := { s with list := list, number := number, charno := charno }
        if number < min ∨ number > max then some (s, some .outOfBounds)
        else if s.begin ≥ number then some (s, some .invRange)
        else do
          let bl ← setRange s.bl s.begin number
          some ({ s with bl := bl }, none)

/-- A number or a range, and its bits. The text starts with a digit. -/
def parseItem (min max : Int) (s : ParseState) : Option (ParseState × Option ParseError) :=
  let (list, number, charno) := readNumber s.list 0 s.charno
  let s := { s with list := list, number := number, charno := charno }
  if number < min ∨ number > max then some (s, some .outOfBounds)
  else
    match s.list with
    | '-' :: list =>
        parseRange min max
          { s with begin := number, number := 0, list := list, charno := int32 (charno + 1) }
    | _ => do
        let bl ← bitlistSet s.bl number
        some ({ s with bl := bl }, none)

/-- The comma between two items. -/
def parseSeparator (s : ParseState) : ParseState × Option ParseError :=
  match s.list with
  | [] => (s, none)
  | ',' :: list =>
      let s := { s with list := list, charno := int32 (s.charno + 1) }
      if list.isEmpty then (s, some .unexpectedEol) else (s, none)
  | _ => (s, some .expComma)

/-- One pass of the loop of `bitlist_from_string`. -/
def parsePass (min max : Int) (s : ParseState) :
    Option (Pass ParseState (ParseState × Option ParseError)) :=
  match s.list with
  | [] => some (.done (s, none))
  | c :: _ =>
      if !isDigit c then some (.done (s, some .nonNumeric))
      else do
        let (s, error) ← parseItem min max s
        if error.isSome then some (.done (s, error))
        else
          let (s, error) := parseSeparator s
          if error.isSome then some (.done (s, error)) else some (.again s)

/-- The text of `*errmsg`, cut to `errmsglen` characters with the NUL. -/
def errorMessage (min max : Int) (s : ParseState) : ParseError → String
  | .nonNumeric =>
      "Character #" ++ toString s.charno ++ " '" ++ String.ofList (s.list.take 1)
        ++ "' is non-numeric"
  | .outOfBounds =>
      "Character #" ++ toString s.charno ++ " delimits a number which is out of the range ("
        ++ toString min ++ ".." ++ toString max ++ ")"
  | .invRange =>
      "Character #" ++ toString s.charno ++ " delimits ending number(" ++ toString s.number
        ++ ") of the range, which is not greater than the starting number("
        ++ toString s.begin ++ ")"
  | .expComma => "Comma expected at character #" ++ toString s.charno
  | .unexpectedEol => "Unexpected end of list"

/-- The room for a message. -/
def errmsglen : Nat := 128

/-- `bitlist_from_string`: the list afterwards, the result and `*errmsg`, which is `none`
for `NULL`. `malloc` says whether there is memory for a message. -/
def bitlistFromString (malloc : Bool) (bl : BitlistT) (list : List Char) :
    Option (BitlistT × Bool × Option String) := do
  let min := int32 bl.state.baseBit
  let max := int32 (min + bl.state.maxBits - 1)
  let (s, error) ← loop (parsePass min max) (list.length + 1)
    { bl := bl, list := list, number := 0, begin := 0, charno := 1 }
  match error with
  | none => some (s.bl, true, none)
  | some error =>
      if malloc then
        some (s.bl, false,
          some (String.ofList ((errorMessage min max s error).toList.take (errmsglen - 1))))
      else some (s.bl, false, none)

/-! ### `bitlist_to_string` -/

/-- The text of `%d`. -/
def decimal : Int → List Char
  | .ofNat n => Nat.toDigits 10 n
  | .negSucc n => '-' :: Nat.toDigits 10 (n + 1)

/-- `strcpy` to the end of the text in a buffer of `room` characters. -/
def strcpy (room : Nat) (text temp : List Char) : Option (List Char) :=
  if text.length + temp.length < room then some (text ++ temp) else none

/-- The variables of `bitlist_to_string`. `text` is the contents of the buffer. -/
structure PrintState where
  bl : BitlistT
  text : List Char
  len : Int
  comma : List Char
  next : Int

/-- One pass of the `do` loop that skips to the end of a range. The state is the list,
`curr` and `next`. -/
def skipPass (s : BitlistT × Int × Int) :
    Option (Pass (BitlistT × Int × Int) (BitlistT × Int × Int)) := do
  let (bl, _, next) := s
  let curr := next
  let (bl, next) ← bitlistFindBit bl false
  if int32 (curr + 1) = next then some (.again (bl, curr, next))
  else some (.done (bl, curr, next))

/-- The loop through a range: the list, the last number of the range and the next number. -/
def skipRange (bl : BitlistT) (curr next : Int) : Option (BitlistT × Int × Int) :=
  loop skipPass (bl.state.maxBits + 1) (bl, curr, next)

/-- The part of a pass after the number `first` of a range is printed and the next bit
follows it. -/
def printRange (room : Nat) (size : Int) (s : PrintState) (first : Int) :
    Option (Pass PrintState PrintState) := do
  let (bl, curr, next) ← skipRange s.bl first s.next
  let temp := '-' :: decimal curr
  let tlen : Int := temp.length
  if int32 (s.len + tlen) < size then
    -- okay, print the trailing part
    let text ← strcpy room s.text temp
    some (.again { s with bl := bl, text := text, len := int32 (s.len + tlen), next := next })
  else
    -- no space, just reset our position
    let curr := int32 (first - bl.state.baseBit)
    some (.done { s with bl := setCursor bl curr, next := int32 (first + 1) })

/-- One pass of the loop of `bitlist_to_string`. -/
def printPass (room : Nat) (size : Int) (s : PrintState) : Option (Pass PrintState PrintState) :=
  if s.next = bitlistInvalid then some (.done s)
  else
    let curr := s.next
    let temp := s.comma ++ decimal curr
    let tlen : Int := temp.length
    if int32 (s.len + tlen) ≥ size then
      -- no space, just reset our position
      let curr := int32 (s.next - s.bl.state.baseBit - 1)
      some (.done { s with bl := setCursor s.bl curr })
    else do
      let text ← strcpy room s.text temp
      let (bl, next) ← bitlistFindBit s.bl false
      let s := { s with
        bl := bl
        text := text
        len := int32 (s.len + tlen)
        comma := [',']
        next := next }
      if int32 (curr + 1) = next then printRange room size s curr else some (.again s)

/-- `bitlist_to_string` on a buffer of `room` characters: the list afterwards, the text in
the buffer and the result. -/
def bitlistToString (room : Nat) (bl : BitlistT) (size : Int) (begin : Bool) :
    Option (BitlistT × List Char × Int) := do
  -- `buf[0] = 0`
  let text ← strcpy room [] []
  let (bl, next) ← bitlistFindBit bl begin
  let s ← loop (printPass room size) (bl.state.maxBits + 2)
    { bl := bl, text := text, len := 0, comma := [], next := next }
  -- return BITLIST_INVALID if we could not print anything
  some (s.bl, s.text, if s.len ≠ 0 then s.next else bitlistInvalid)

/-! ### `bitlist_dump` -/

/-- The text of `0x%x`. -/
def hexadecimal (n : Int) : List Char := '0' :: 'x' :: Nat.toDigits 16 (uint32 n)

/-- The variables of `bitlist_dump`. `text` is what is printed so far, and `last` is `end`. -/
structure DumpState where
  bl : BitlistT
  text : List Char
  bit : Int
  previous : Int
  begin : Int
  last : Int

/-- What is printed for `begin` and `end`, with the text `comma` behind it. -/
def dumpRange (begin last : Int) (comma : List Char) : List Char :=
  if begin < last then hexadecimal begin ++ '-' :: hexadecimal last ++ comma
  else if begin = last then hexadecimal begin ++ comma
  else []

/-- One pass of the loop of `bitlist_dump`. -/
def dumpPass (s : DumpState) : Option (Pass DumpState DumpState) :=
  if s.bit = bitlistInvalid then some (.done s)
  else
    let s :=
      if s.bit ≠ int32 (s.previous + 1) then
        { s with text := s.text ++ dumpRange s.begin s.last [','], begin := s.bit, last := s.bit }
      else { s with last := s.bit }
    do
      let (bl, bit) ← bitlistFindAfter s.bl s.bit
      some (.again { s with bl := bl, previous := s.bit, bit := bit })

/-- `bitlist_dump`: the list afterwards and what is printed. -/
def bitlistDump (bl : BitlistT) : Option (BitlistT × List Char) := do
  let (bl, bit) ← bitlistFindFirst bl
  let s ← loop dumpPass (bl.state.maxBits + 1)
    { bl := bl
      text := []
      bit := bit
      previous := int32 (bit - 2)
      begin := bit
      last := int32 (bit - 1) }
  some (s.bl, s.text ++ dumpRange s.begin s.last [])

/-! ### `bitlist_nv_write` -/

/-- One pass of the `do` loop of `bitlist_nv_write`. The state is the list, `begin` and the
lines written so far. -/
def nvWritePass (room : Nat) (len : Int) (linePrefix lineSuffix : List Char)
    (s : BitlistT × Bool × List (List Char)) :
    Option (Pass (BitlistT × Bool × List (List Char)) (BitlistT × List (List Char))) := do
  let (bl, begin, lines) := s
  let (bl, buf, i) ← bitlistToString room bl len begin
  let lines :=
    if buf ≠ [] then lines ++ [linePrefix ++ [' '] ++ buf ++ lineSuffix] else lines
  if i ≠ bitlistInvalid then some (.again (bl, false, lines)) else some (.done (bl, lines))

/-- `bitlist_nv_write`: the list afterwards, the result and the lines given to `nv_write`.
`malloc` says whether there is memory for a buffer of more than 80 characters. -/
def bitlistNvWrite (malloc : Bool) (bl : BitlistT) (linePrefix lineSuffix : List Char)
    (maxlen : Int) : Option (BitlistT × Bool × List (List Char)) :=
  let len := int32 (maxlen - (linePrefix.length + 1 + lineSuffix.length))
  if len > 80 ∧ !malloc then some (bl, false, [])
  else do
    let room := if len ≤ 80 then 80 else len.toNat
    let (bl, lines) ← loop (nvWritePass room len linePrefix lineSuffix) (bl.state.maxBits + 1)
      (bl, true, [])
    some (bl, true, lines)

end MyTestFiles.Bitlist
