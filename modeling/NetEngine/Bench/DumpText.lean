import NetEngine.Bench.Merge
import NetEngine.Epoll.Protocol
import NetEngine.Library.Decimal
import NetEngine.Library.Words

/-! The text of a dump: `dump_stats` and `dump_histogram` print it, `parse` of
`merge.py` cuts it into lines and words and converts them. Numbers are read as
`printf` writes them; the file is ASCII. -/

set_option autoImplicit false

namespace NetEngine.Bench

open Epoll (ascii)

/-! ## Numbers -/

/-- `%d`. -/
def printInt (n : Int) : Bytes :=
  if n < 0 then 45 :: Decimal.print n.natAbs else Decimal.print n.toNat

def readInt : Bytes → Option Int
  | 45 :: digits => (Decimal.read digits).map fun n : Nat => -(n : Int)
  | digits => (Decimal.read digits).map fun n : Nat => (n : Int)

/-- `%.6f` of a number of millionths. -/
def printMillionths (n : Int) : Bytes :=
  let digits := Decimal.print (n.natAbs % 1000000)
  (if n < 0 then [45] else []) ++ Decimal.print (n.natAbs / 1000000) ++
    46 :: (List.replicate (6 - digits.length) 48 ++ digits)

/-- An integer, or one with a point and a fraction. -/
def readDecimal (text : Bytes) : Option Rat :=
  match text.dropWhile (· ≠ 46) with
  | [] => (readInt text).map fun n : Int => (n : Rat)
  | _ :: fraction => do
      let sign : Rat := if text.head? = some 45 then -1 else 1
      let whole ← readInt (text.takeWhile (· ≠ 46))
      let part ← Decimal.read fraction
      some (whole + sign * (part / 10 ^ fraction.length))

/-! ## Keys -/

def Label.key : Label → Bytes
  | .latency => ascii "latency"
  | .selfLag => ascii "self_lag"

def SumKey.key : SumKey → Bytes
  | .sent => ascii "sent"
  | .framesIn => ascii "frames_in"
  | .bytesIn => ascii "bytes_in"
  | .unparsed => ascii "unparsed"
  | .foreign => ascii "foreign"
  | .backpressed => ascii "backpressed"
  | .lostConns => ascii "lost_conns"
  | .conns => ascii "conns"

def FirstKey.key : FirstKey → Bytes
  | .rate => ascii "rate"
  | .duration => ascii "duration"
  | .perRoom => ascii "per_room"

def SumKey.all : List SumKey :=
  [.sent, .framesIn, .bytesIn, .unparsed, .foreign, .backpressed, .lostConns, .conns]

def FirstKey.all : List FirstKey := [.rate, .duration, .perRoom]

/-! ## Printing -/

/-- `key=value`. -/
def printField (key : String) (value : Bytes) : Bytes := ascii key ++ 61 :: value

/-- The words of a line. The rate is the one number printed with a fraction. -/
def Line.words : Line → List Bytes
  | .header version lagFloor lagRatio =>
      [ascii "netbench-dump", 118 :: Decimal.print version,
        printField "lag_floor_ns" (Decimal.print lagFloor),
        printField "lag_ratio" (Decimal.print lagRatio)]
  | .node id => [ascii "node", Decimal.print id]
  | .sum key value => [key.key, printInt value]
  | .first .rate value => [FirstKey.rate.key, printMillionths ⌊value * 1000000⌋]
  | .first key value => [key.key, printInt ⌊value⌋]
  | .hist label total overflow min max bucketNs =>
      [ascii "hist", label.key, printField "total" (Decimal.print total),
        printField "overflow" (Decimal.print overflow), printField "min" (Decimal.print min),
        printField "max" (Decimal.print max), printField "bucket_ns" (Decimal.print bucketNs)]
  | .bucket b count => [Decimal.print b, Decimal.print count]
  | .close => [ascii "end"]

def Line.print (line : Line) : Bytes := Words.unwords 32 line.words

/-- The file that `dump_stats` writes. -/
def dumpFile (cfg : Config) (st : Stats) : Bytes :=
  Words.unlines 10 ((dumpStats cfg st).map Line.print)

/-! ## Reading -/

/-- Reading a text file turns `\r\n` and `\r` into `\n`. -/
def newlines : Bytes → Bytes
  | 13 :: 10 :: text => 10 :: newlines text
  | 13 :: text => 10 :: newlines text
  | letter :: text => letter :: newlines text
  | [] => []

/-- Where `splitlines` cuts. -/
def isBreak (letter : UInt8) : Bool :=
  (10 ≤ letter.toNat && letter.toNat ≤ 13) || (28 ≤ letter.toNat && letter.toNat ≤ 30)

/-- Where `split` cuts. -/
def isBlank (letter : UInt8) : Bool :=
  letter = 32 || (9 ≤ letter.toNat && letter.toNat ≤ 13) ||
    (28 ≤ letter.toNat && letter.toNat ≤ 31)

/-- A line with no meaning outside a block, and an error within one. -/
def Line.unknown : Line := .header 0 0 0

/-- `p.split("=", 1)`. -/
def readField (part : Bytes) : Option (Bytes × Bytes) :=
  match part.dropWhile (· ≠ 61) with
  | [] => none
  | _ :: value => some (part.takeWhile (· ≠ 61), value)

/-- An entry of the dictionary, where a later pair replaces an earlier one. -/
def readNumber (fields : List (Bytes × Bytes)) (key : String) : Option Nat :=
  (fields.reverse.find? (·.1 = ascii key)).bind fun field => Decimal.read field.2

def readHist (parts : List Bytes) : Option Line :=
  match parts with
  | [] => none
  | label :: parts => do
      let fields ← parts.mapM readField
      some (.hist (if label = ascii "latency" then .latency else .selfLag)
        (← readNumber fields "total") (← readNumber fields "overflow") (← readNumber fields "min")
        (← readNumber fields "max") (← readNumber fields "bucket_ns"))

/-- A line of two words: a key with its value, or a bucket with its count. -/
def readPair (key value : Bytes) : Option Line :=
  match SumKey.all.find? (·.key = key), FirstKey.all.find? (·.key = key) with
  | some key, _ => (readInt value).map (.sum key)
  | none, some key => (readDecimal value).map (.first key)
  | none, none =>
      if key = ascii "node" then (Decimal.read value).map .node
      else match Decimal.read key, Decimal.read value with
        | some b, some count => some (.bucket b count)
        | _, _ => some .unknown

def readLine (text : Bytes) : Option Line :=
  if text = ascii "end" then some .close
  else match Words.words isBlank text with
    | [key, value] => if key = ascii "hist" then readHist [value] else readPair key value
    | key :: parts => if key = ascii "hist" then readHist parts else some .unknown
    | [] => some .unknown

/-- The first line. -/
def readHeader (text : Bytes) : Option Line :=
  if (ascii "netbench-dump ").isPrefixOf text then
    match Words.words isBlank text with
    | _ :: version :: parts =>
        if version = ascii "v1" then do
          let fields ← parts.mapM readField
          some (.header 1 (← readNumber fields "lag_floor_ns") (← readNumber fields "lag_ratio"))
        else none
    | _ => none
  else none

def readFile (text : Bytes) : Option (List Line) :=
  match Words.lines isBreak (newlines text) with
  | [] => none
  | first :: rest => do
      let header ← readHeader first
      let lines ← rest.mapM readLine
      some (header :: lines)

/-- `parse` for each file on the command line. -/
def Merged.parseFiles (merged : Merged) (files : List Bytes) : Option Merged :=
  files.foldlM (fun merged text => (readFile text).bind merged.parse) merged

end NetEngine.Bench
