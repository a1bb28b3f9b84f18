import NetEngine.Library.Counter
import NetEngine.Library.Decimal
import NetEngine.Library.LittleEndian
import NetEngine.Library.Utf8

/-! `chatcli.py`: its framing under both conventions, `read_frames`, what `mode_interactive`
sends of what is typed, and the verdict of `mode_verify`. Texts are lists of characters. -/

set_option autoImplicit false

namespace NetEngine.Chatcli

abbrev Bytes := List UInt8

abbrev Text := List Char

structure Proto where
  lenIncludesHeader : Bool

def study : Proto := ⟨false⟩

def iouring : Proto := ⟨true⟩

def headerSize : Nat := 4

def cChat : UInt16 := 3

def sChat : UInt16 := 101

namespace Proto

/-- `HDR.pack` refuses a length that is no word. -/
def frame (p : Proto) (mtype : UInt16) (body : Bytes) : Option Bytes :=
  let n := if p.lenIncludesHeader then body.length + headerSize else body.length
  if n < 2 ^ 16 then
    some (LittleEndian.encode (UInt16.ofNat n) ++ LittleEndian.encode mtype ++ body)
  else none

def payloadLen (p : Proto) (raw : UInt16) : Option Nat :=
  if ¬ p.lenIncludesHeader then some raw.toNat
  else if headerSize ≤ raw.toNat then some (raw.toNat - headerSize)
  else none

end Proto

/-! ## read_frames -/

/-- `ValueError` loses the frames that the call has found so far. -/
inductive Read where
  | eof
  | frames (out : List (UInt16 × Text))
  | malformed
  deriving DecidableEq

/-- The loop: what is left of `buf`, the frames, and whether the next one is malformed. -/
def scan (p : Proto) (buf : Bytes) : Bytes × List (UInt16 × Text) × Bool :=
  if _short : buf.length < headerSize then (buf, [], false)
  else
    match p.payloadLen (LittleEndian.read buf) with
    | none => (buf, [], true)
    | some length =>
        if buf.length < headerSize + length then (buf, [], false)
        else
          let (rest, out, malformed) := scan p (buf.drop (headerSize + length))
          (rest,
            (LittleEndian.read (buf.drop 2), Utf8.replace ((buf.drop headerSize).take length)) :: out,
            malformed)
termination_by buf.length
decreasing_by
  rw [List.length_drop]
  simp only [headerSize] at *
  omega

/-- `recv` has returned `data`. -/
def readFrames (p : Proto) (buf data : Bytes) : Bytes × Read :=
  if data = [] then (buf, .eof)
  else
    let (rest, out, malformed) := scan p (buf ++ data)
    (rest, if malformed then .malformed else .frames out)

/-- A thread that reads until the end of the stream or a malformed frame. -/
def readAll (p : Proto) : Bytes → List Bytes → Bytes × List (UInt16 × Text)
  | buf, [] => (buf, [])
  | buf, data :: pieces =>
      match readFrames p buf data with
      | (buf, .frames out) =>
          let (buf, later) := readAll p buf pieces
          (buf, out ++ later)
      | (buf, _) => (buf, [])

/-! ## mode_interactive -/

def maxPayload : Int := 1024

def nickSep : Text := [':', ' ']

/-- Bytes of text that this nickname may send before the server drops it. -/
def chatBudget (nick : Text) : Int :=
  maxPayload - (Utf8.encode nick).length - (Utf8.encode nickSep).length

/-- `line.encode()`, which raises on a byte that was escaped. -/
def strictEncode (line : List Utf8.Piece) : Option Bytes :=
  if line.all (· matches .char _) then some (Utf8.unescape line) else none

/-- The bytes of a line, and whether there is the warning that it was damaged. -/
def encodeLine (line : List Utf8.Piece) : Bytes × Bool :=
  match strictEncode line with
  | some bytes => (bytes, false)
  | none =>
      let raw := Utf8.unescape line
      match Utf8.decode raw with
      | some _ => (raw, false)
      | none => (Utf8.encode (Utf8.replace raw), true)

/-- What one line from the terminal makes it send. -/
def say (p : Proto) (nick : Text) (line : List Utf8.Piece) : Option Bytes :=
  if line = [] then none
  else
    let (body, _) := encodeLine line
    if chatBudget nick < body.length then none else p.frame cChat body

def interactive (p : Proto) (nick : Text) (lines : List (List Utf8.Piece)) : List Bytes :=
  lines.filterMap (say p nick)

/-! ## mode_verify -/

def digits (n : Nat) : Text := (Decimal.numeral n).map Nat.digitChar

/-- The number in `v000`. -/
def padded (n : Nat) : Text := List.replicate (3 - (digits n).length) '0' ++ digits n

def nick (i : Nat) : Text := 'v' :: padded i

def classes : List Nat := [8, 63, 64, 65, 200, 900]

def letters : Text := "abcdefghij".toList

def fill (n : Nat) : Text := (List.replicate (n / 10 + 1) letters).flatten.take n

/-- The message of client `i` in round `r`. -/
def body (clients r i : Nat) : Text :=
  nick i ++ '#' :: digits r ++ ':' :: fill (classes.getD ((r * clients + i) % classes.length) 0)

/-- `expected`, as `want` has it: what the server makes of every message. -/
def expected (clients messages : Nat) : List Text :=
  (List.range messages).flatMap fun r =>
    (List.range clients).map fun i => nick i ++ nickSep ++ body clients r i

/-- What the `drain` of one client has counted. -/
def received (p : Proto) (pieces : List Bytes) : Counter Text :=
  Counter.ofList (((readAll p [] pieces).2.filter fun frame => frame.1 = sChat).map Prod.snd)

structure Tally where
  missing : Nat := 0
  dupes : Nat := 0
  corrupt : Nat := 0

def Tally.want (tally : Tally) (got : Counter Text) (entry : Text × Nat) : Tally :=
  let held := Counter.get entry.1 got
  if held < entry.2 then { tally with missing := tally.missing + (entry.2 - held) }
  else if entry.2 < held then { tally with dupes := tally.dupes + (held - entry.2) }
  else tally

def Tally.saw (tally : Tally) (want : Counter Text) (entry : Text × Nat) : Tally :=
  if entry.1 ∈ Counter.keys want then tally
  else { tally with corrupt := tally.corrupt + entry.2 }

def Tally.client (want : Counter Text) (tally : Tally) (got : Counter Text) : Tally :=
  got.foldl (fun tally entry => tally.saw want entry)
    (want.foldl (fun tally entry => tally.want got entry) tally)

/-- `ok`, from what each client has received. -/
def verify (p : Proto) (clients messages : Nat) (pieces : Nat → List Bytes) : Bool :=
  let want := Counter.ofList (expected clients messages)
  let tally := ((List.range clients).map fun i => received p (pieces i)).foldl (Tally.client want) {}
  tally.missing = 0 && tally.dupes = 0 && tally.corrupt = 0

end NetEngine.Chatcli
