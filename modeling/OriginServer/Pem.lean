import OriginServer.Text.Base64

namespace OriginServer.Pem

inductive Kind where
  | certificate
  | publicKey
  | rsaPrivateKey
  | privateKey
  | ecPrivateKey
  | revocationList
  | certificateRequest
  | echConfig
  deriving Repr, DecidableEq

namespace Kind

def all : List Kind :=
  [certificate, publicKey, rsaPrivateKey, privateKey, ecPrivateKey, revocationList,
    certificateRequest, echConfig]

def label : Kind → String
  | certificate => "CERTIFICATE"
  | publicKey => "PUBLIC KEY"
  | rsaPrivateKey => "RSA PRIVATE KEY"
  | privateKey => "PRIVATE KEY"
  | ecPrivateKey => "EC PRIVATE KEY"
  | revocationList => "X509 CRL"
  | certificateRequest => "CERTIFICATE REQUEST"
  | echConfig => "ECHCONFIG"

def ofLabel? (text : Bytes) : Option Kind := all.find? fun k => Bytes.ofText k.label == text

end Kind

/-- A section with what its base 64 stands for. -/
structure Block where
  kind : Kind
  content : Bytes
  deriving Repr, DecidableEq

def isLineEnd (b : UInt8) : Bool := b == Ascii.lf || b == Ascii.cr

/-- The lines of a file, each with the byte that ends it. -/
def lines : Bytes → List Bytes
  | [] => []
  | b :: rest =>
    if isLineEnd b then [b] :: lines rest
    else
      match lines rest with
      | [] => [[b]]
      | line :: more => (b :: line) :: more

abbrev dash : UInt8 := 0x2d

def beginMark : Bytes := Bytes.ofText "-----BEGIN "

def endMark (label : Bytes) : Bytes := Bytes.ofText "-----END " ++ label ++ Bytes.ofText "-----"

/-- What a line is with respect to sections. -/
inductive Line where
  | opening (label : Bytes)
  /-- It begins like the first line of a section and does not end like one. -/
  | malformed
  | other
  deriving Repr, DecidableEq

/-- The first line of a section ends with five dashes, behind which there may be blanks. -/
def Line.of (line : Bytes) : Line :=
  if beginMark.isPrefixOf line then
    let body := line.drop beginMark.length
    let isTrailing (b : UInt8) : Bool := b == dash || isLineEnd b || b == Ascii.sp
    let trailer := (body.reverse.takeWhile isTrailing).reverse
    if trailer.count dash = 5 then
      opening (body.take (body.length - trailer.length) ++ trailer.takeWhile (· != dash))
    else malformed
  else other

/-- The sections of the lines, and whether they are well-formed up to the end. `label` is that of
the section which is open, and `gathered` its lines so far. -/
def blocksFrom (label : Option Bytes) (gathered : Bytes) : List Bytes → List Block × Bool
  | [] => ([], label.isNone)
  | line :: rest =>
    match Line.of line, label with
    | .malformed, _ => ([], false)
    | .opening found, _ => blocksFrom (some found) gathered rest
    | .other, none => blocksFrom none gathered rest
    | .other, some l =>
      if (endMark l).isPrefixOf line then
        match Kind.ofLabel? l with
        | none => blocksFrom none [] rest
        | some kind =>
          match Base64.decodeWrapped? gathered with
          | none => ([], false)
          | some content =>
            let (more, wellFormed) := blocksFrom none [] rest
            (⟨kind, content⟩ :: more, wellFormed)
      else blocksFrom label (gathered ++ line) rest

def blocks (file : Bytes) : List Block × Bool := blocksFrom none [] (lines file)

/-- What a file is read for. -/
inductive Purpose where
  | certificate
  | privateKey
  deriving Repr, DecidableEq

def Purpose.text : Purpose → String
  | certificate => "certificate"
  | privateKey => "private key"

inductive LoadError where
  | cannotOpen (purpose : Purpose) (path : String)
  | cannotRead (purpose : Purpose) (path : String)
  | nothingFound (purpose : Purpose) (path : String)
  deriving Repr, DecidableEq

def LoadError.message : LoadError → String
  | cannotOpen purpose path => s!"opening {purpose.text} {path}"
  | cannotRead purpose path => s!"reading {purpose.text} {path}"
  | nothingFound purpose path => s!"no {purpose.text} found in {path}"

/-- All certificates of a file. There is at least one. -/
def loadCertificates (path : String) (file : Option Bytes) : Except LoadError (List Bytes) :=
  match file.map blocks with
  | none => .error (.cannotOpen .certificate path)
  | some (_, false) => .error (.cannotRead .certificate path)
  | some (found, true) =>
    let certificates := found.filter (·.kind == .certificate)
    if certificates.isEmpty then .error (.nothingFound .certificate path)
    else .ok (certificates.map (·.content))

def isPrivateKey (b : Block) : Bool :=
  b.kind == .rsaPrivateKey || b.kind == .ecPrivateKey || b.kind == .privateKey

/-- The first private key of a file. What follows it is not read. -/
def loadKey (path : String) (file : Option Bytes) : Except LoadError Block :=
  match file.map blocks with
  | none => .error (.cannotOpen .privateKey path)
  | some (found, wellFormed) =>
    match found.find? isPrivateKey with
    | some key => .ok key
    | none =>
      if wellFormed then .error (.nothingFound .privateKey path)
      else .error (.cannotRead .privateKey path)

end OriginServer.Pem
