import Bx.Kit.Hex
import Mathlib.Data.List.DropRight

/-!
# From a URL to a local path

A component of a URL becomes one name in a directory. What must not be a name
as it is gets a reserved prefix, and what already has the prefix is escaped.
-/

namespace Bx.Fetch
open Kit

/-! ## Configuration -/

structure RestrictFileNameModes where
  unixMode : Bool
  windowsMode : Bool
  deriving DecidableEq

structure PathmapConfig where
  restrictFileNames : Option Bytes
  defaultPage : Option Bytes
  noDirectories : Bool
  recursive : Bool
  forceDirectories : Bool
  protocolDirectories : Bool
  noHostDirectories : Bool
  cutDirs : Int
  directoryPrefix : Option Bytes

variable (cfg : PathmapConfig) (c : UInt8) (modes : RestrictFileNameModes)

def isspace : Bool := c == 32 || (9 ≤ c && c ≤ 13)

def tolower : UInt8 := if 65 ≤ c ∧ c ≤ 90 then c + 32 else c

def toupper : UInt8 := if 97 ≤ c ∧ c ≤ 122 then c - 32 else c

def trimSpaces (token : Bytes) : Bytes := (token.dropWhile isspace).rdropWhile isspace

def addRestrictMode (token : Bytes) : Option RestrictFileNameModes :=
  let tok := trimSpaces token
  if tok = [] then some modes
  else if tok.map tolower = ascii "unix" then some { modes with unixMode := true }
  else if tok.map tolower = ascii "windows" then some { modes with windowsMode := true }
  else none

def parseRestrictModes : Option RestrictFileNameModes :=
  match cfg.restrictFileNames with
  | none => some ⟨false, false⟩
  | some names => if names = [] then some ⟨false, false⟩ else (names.splitOn 44).foldlM addRestrictMode ⟨false, false⟩

def restrictModesEnabled : Bool := modes.unixMode || modes.windowsMode

/-! ## Names -/

def dot : UInt8 := 46

def slash : UInt8 := 47

def space : UInt8 := 32

def isWindowsDeviceName (text : Bytes) : Bool :=
  let base := (text.rdropWhile fun c => c = dot || c = space).takeWhile (· ≠ dot)
  if base.length = 3 then
    let name := base.map toupper
    name = ascii "CON" || name = ascii "PRN" || name = ascii "AUX" || name = ascii "NUL"
  else if base.length = 4 then
    let start := (base.take 3).map toupper
    (start = ascii "COM" || start = ascii "LPT") && (base.drop 3).all fun c => 49 ≤ c && c ≤ 57
  else false

def isWindowsReservedChar : Bool := c ∈ ascii "<>:\"\\|?*"

def isControl : Bool := c < 0x20 || c = 0x7f

variable (component : Bytes)

def componentNeedsEncoding (modes : RestrictFileNameModes) : Bool :=
  if component = [] || component = ascii "." || component = ascii ".." then true
  else if modes.windowsMode && (component.getLast? = some dot || component.getLast? = some space ||
      isWindowsDeviceName component) then true
  else component.any fun c => isControl c || c = slash || (modes.windowsMode && isWindowsReservedChar c)

def emptySegmentToken : Bytes := ascii "@mira@empty"

def reservedSegmentPrefix : Bytes := ascii "@mira@"

def escapedSegmentPrefix : Bytes := ascii "@mira@literal@"

def encodedSegmentPrefix : Bytes := ascii "@mira@encoded@"

def dotSegmentPrefix : Bytes := ascii "@mira@dot"

def querySegmentPrefix : Bytes := ascii "@mira@query@"

def encodeComponent (component start : Bytes) : Bytes := start ++ hexText component

def sanitizeUnder : Bytes :=
  if component = [] then emptySegmentToken
  else if componentNeedsEncoding component modes then encodeComponent component encodedSegmentPrefix
  else
    let leadingDots := if restrictModesEnabled modes then (component.takeWhile (· = dot)).length else 0
    let payload := component.drop leadingDots
    if 0 < leadingDots then
      if payload = [] then dotSegmentPrefix ++ numeral 10 leadingDots
      else dotSegmentPrefix ++ numeral 10 leadingDots ++ ascii "@" ++ payload
    else if reservedSegmentPrefix <+: payload then escapedSegmentPrefix ++ payload
    else payload

/-- `none` where the configured modes are not known -/
def sanitizeComponent (cfg : PathmapConfig) : Option Bytes :=
  if component = [] then some emptySegmentToken
  else (parseRestrictModes cfg).map fun modes => sanitizeUnder modes component

/-! ## Paths -/

def directorySegments (cfg : PathmapConfig) : Nat → List Bytes → Option (List Bytes)
  | _, [] => some []
  | _, [_] => some []
  | skip + 1, _ :: next :: rest => directorySegments cfg skip (next :: rest)
  | 0, token :: next :: rest => do
    let sanitized ← sanitizeComponent token cfg
    let segments ← directorySegments cfg 0 (next :: rest)
    return sanitized :: segments

def dropLeadingSlash (path : Bytes) : Bytes := if path.head? = some slash then path.tail else path

def buildDirectoryPart (path : Bytes) (cfg : PathmapConfig) : Option Bytes :=
  match directorySegments cfg cfg.cutDirs.toNat ((dropLeadingSlash path).splitOn slash) with
  | none => none
  | some [] => none
  | some segments => some (List.intercalate [slash] segments)

def defaultPageName : Bytes :=
  match cfg.defaultPage with
  | none => ascii "index.html"
  | some page => if page = [] then ascii "index.html" else page

def pathBasename (path : Option Bytes) (defaultPage : Bytes) (cfg : PathmapConfig) : Option Bytes :=
  let base := match path with
    | none => []
    | some path => path.rtakeWhile (· ≠ slash)
  if base = [] then sanitizeComponent defaultPage cfg
  else
    match sanitizeComponent base cfg with
    | none => none
    | some sanitized => if sanitized = [] then sanitizeComponent defaultPage cfg else some sanitized

structure ParsedUrl where
  scheme : Option Bytes
  host : Option Bytes
  path : Option Bytes

def urlBasename (url : ParsedUrl) (query : Option Bytes) (cfg : PathmapConfig) : Option Bytes :=
  match pathBasename url.path (defaultPageName cfg) cfg, query with
  | none, _ => none
  | some name, none => some name
  | some name, some query => some (encodeComponent query querySegmentPrefix ++ ascii "@" ++ name)

def queryText : Bytes → Option Bytes
  | [] => none
  | c :: rest => if c = 63 then some rest else queryText rest

def flattenLayout : Bool := cfg.noDirectories || (!cfg.recursive && !cfg.forceDirectories)

def withSlash (part : Option Bytes) : Bytes :=
  match part with
  | none => []
  | some part => part ++ [slash]

def joinLayout (url : ParsedUrl) (file : Bytes) (cfg : PathmapConfig) : Bytes :=
  let protoPart := if cfg.protocolDirectories then url.scheme.bind fun scheme => sanitizeComponent scheme cfg else none
  let hostPart := if cfg.noHostDirectories then none else url.host.bind fun host => sanitizeComponent host cfg
  let dirPart := url.path.bind fun path => buildDirectoryPart path cfg
  let dirPart := if dirPart = some [] then none else dirPart
  withSlash protoPart ++ withSlash hostPart ++ withSlash dirPart ++ file

def withDirectoryPrefix (localPath : Bytes) : Bytes :=
  match cfg.directoryPrefix with
  | none => localPath
  | some start => if start = [] then localPath else start ++ ascii "/" ++ localPath

/-- The local path of a canonical URL; `parse` is the URL parser. -/
def canonicalUrlToLocal (parse : Bytes → Option ParsedUrl) (url : Bytes) (cfg : PathmapConfig) : Option Bytes := do
  let mu ← parse url
  let file ← urlBasename mu (queryText url) cfg
  return withDirectoryPrefix cfg (if flattenLayout cfg then file else joinLayout mu file cfg)

end Bx.Fetch
