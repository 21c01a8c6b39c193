import Pearl.Path
import Pearl.Text.Utf8
import Pearl.Uri.Authority

namespace Pearl.Uri

/-- Documents in the file system are named by such a URI. -/
def fileScheme : String := "file://"

def isFile (uri : String) : Bool := (Text.dropHead? fileScheme.toList uri.toList).isSome

/-! ### Percent escapes -/

/-- Bytes that stand for themselves in the path of a URI. -/
def isUnreserved (b : UInt8) : Bool :=
  let c := Char.ofNat b.toNat
  b < 0x80 && (c.isAlphanum || c = '_' || c = '.' || c = '-' || c = '~' || c = '/')

def encodeByte (b : UInt8) : List Char :=
  if isUnreserved b then [Char.ofNat b.toNat]
  else ['%', Text.hexDigit (b.toNat / 16), Text.hexDigit (b.toNat % 16)]

def percentEncode (cs : List Char) : List Char := (Text.Utf8.encode cs).flatMap encodeByte

/-- The bytes of an ASCII text with its escapes read; a percent sign without two hexadecimal
digits after it stands for itself. -/
def unescape : List Char → List UInt8
  | [] => []
  | [c] => [UInt8.ofNat c.toNat]
  | [c, d] => [UInt8.ofNat c.toNat, UInt8.ofNat d.toNat]
  | c :: h :: l :: cs =>
    match if c = '%' then (Text.hexValue? h).bind fun a => (Text.hexValue? l).map fun b => a * 16 + b
      else none with
    | some n => UInt8.ofNat n :: unescape cs
    | none => UInt8.ofNat c.toNat :: unescape (h :: l :: cs)

/-- Reads the escapes of a text. Each run of ASCII characters is decoded on its own, with
replacement characters for what is no UTF-8; other characters stand for themselves. -/
def percentDecode (cs : List Char) : List Char :=
  match cs with
  | [] => []
  | c :: rest =>
    if c.toNat < 0x80 then
      Text.Utf8.decodeReplacing (unescape (c :: rest.takeWhile (·.toNat < 0x80))) ++
        percentDecode (rest.dropWhile (·.toNat < 0x80))
    else c :: percentDecode rest
termination_by cs.length
decreasing_by
  · simp only [List.length_cons]
    exact Nat.lt_succ_of_le (List.dropWhile_sublist _).length_le
  · simp

/-! ### Parts of a URI -/

/-- Schemes whose paths may end in parameters after a semicolon. -/
def parameterSchemes : List String :=
  ["", "ftp", "hdl", "prospero", "http", "imap", "https", "shttp", "rtsp", "rtspu", "sip",
   "sips", "mms", "sftp", "tel"]

def isSchemeChar (c : Char) : Bool := c.isAlphanum || c = '+' || c = '-' || c = '.'

/-- A written URI without the controls and blanks before it and the tabs and line ends in it. -/
def clean (cs : List Char) : List Char :=
  (cs.dropWhile (·.toNat ≤ 0x20)).filter fun c => c ≠ '\t' ∧ c ≠ '\r' ∧ c ≠ '\n'

/-- The scheme, in lower case, and the rest; without a scheme that is empty and the whole. -/
def splitScheme (cs : List Char) : List Char × List Char :=
  match Text.splitFirst ':' cs with
  | (c :: scheme, some rest) =>
    if c.isAlpha && scheme.all isSchemeChar then ((c :: scheme).map Char.toLower, rest)
    else ([], cs)
  | _ => ([], cs)

def splitAuthority (cs : List Char) : List Char × List Char :=
  match cs with
  | '/' :: '/' :: rest =>
    let inside := fun c : Char => c ≠ '/' ∧ c ≠ '?' ∧ c ≠ '#'
    (rest.takeWhile inside, rest.dropWhile inside)
  | _ => ([], cs)

/-- A path without the parameters of its last component. -/
def dropParameters (cs : List Char) : List Char :=
  let last := (cs.reverse.takeWhile (· ≠ '/')).reverse
  cs.take (cs.length - last.length) ++ last.takeWhile (· ≠ ';')

/-- The path component of a URI, escapes included. -/
def pathText (uri : List Char) : Except UriError (List Char) :=
  let (scheme, rest) := splitScheme (clean uri)
  let (authority, rest) := splitAuthority rest
  match Authority.check authority with
  | .error e => .error e
  | .ok () =>
    let path := ((rest.takeWhile (· ≠ '#')).takeWhile (· ≠ '?'))
    .ok (if parameterSchemes.contains (String.ofList scheme) then dropParameters path else path)

/-- The path a URI names: host, query and fragment are dropped and escapes are read. -/
def toPath (uri : String) : Except UriError Path :=
  (pathText uri.toList).map fun path => Path.ofString (String.ofList (percentDecode path))

def ofPath (p : Path) : String :=
  fileScheme ++ String.ofList (percentEncode p.toString.toList)

/-- The name of a document for messages: the path of a file, any other URI as it is. -/
def displayName (uri : String) : Except UriError String :=
  if isFile uri then (toPath uri).map Path.toString else .ok uri

end Pearl.Uri
