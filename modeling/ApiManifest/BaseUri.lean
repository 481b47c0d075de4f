import ApiManifest.Error
import ApiManifest.Text.Digit
import ApiManifest.Text.Split

/-!
# Base URIs

A manifest says where its interface lives by a base URI without a scheme, such as
`api.example.com/v1`. Its host and its base path are read as those of the URI that the scheme
makes of it.
-/

namespace ApiManifest.BaseUri

/-! ## Hosts in brackets -/

/-- Whether a text is a number of at most three ASCII digits, below 256 and without leading
zeros. -/
def isOctet (cs : List Char) : Bool :=
  match cs with
  | [] => false
  | ['0'] => true
  | c :: _ =>
    cs.all Char.isDigit && cs.length ≤ 3 && c != '0' &&
      cs.foldl (fun n d => n * 10 + (d.toNat - 48)) 0 ≤ 255

/-- Whether a text is an IPv4 address: four octets between points. -/
def isIPv4 (cs : List Char) : Bool :=
  let octets := Text.splitAt '.' cs
  octets.length == 4 && octets.all isOctet

/-- Whether a text is a group of an IPv6 address: one to four hexadecimal digits. -/
def isGroup (cs : List Char) : Bool :=
  !cs.isEmpty && cs.length ≤ 4 && cs.all fun c => (Text.hexValue? c).isSome

/-- Whether the parts between colons make up the eight groups of an IPv6 address. One empty part
inside stands for one group or more that are zero; the first or the last part may be empty only
beside it. -/
def isIPv6Groups (parts : List (List Char)) : Bool :=
  let inner := (parts.drop 1).dropLast
  match inner.countP List.isEmpty with
  | 0 => parts.length == 8 && parts.all isGroup
  | 1 =>
    let high := parts.take (inner.findIdx List.isEmpty + 1)
    let low := parts.drop (high.length + 1)
    let high := if high == [[]] then [] else high
    let low := if low == [[]] then [] else low
    high.all isGroup && low.all isGroup && high.length + low.length < 8
  | _ => false

/-- Whether a text is an IPv6 address. The last two groups may be written as an IPv4 address, and
a zone may follow behind a percent sign. -/
def isIPv6 (cs : List Char) : Bool :=
  let (address, zone) := Text.cut '%' cs
  let zoneOk := zone.all fun z => !z.isEmpty && !z.contains '%'
  let parts := Text.splitAt ':' address
  let tail := parts.getLast?.getD []
  let groups :=
    if tail.contains '.' then
      if isIPv4 tail then some (parts.dropLast ++ [['0'], ['0']]) else none
    else some parts
  zoneOk && 3 ≤ parts.length &&
    groups.any fun groups => groups.length ≤ 9 && isIPv6Groups groups

/-- Whether a text is an address of a later version: `v`, the version in hexadecimal, a point and
something behind it. -/
def isFutureAddress (cs : List Char) : Bool :=
  match cs with
  | 'v' :: rest =>
    match Text.cut '.' rest with
    | (version, some address) =>
      !version.isEmpty && version.all (fun c => (Text.hexValue? c).isSome) && !address.isEmpty
    | _ => false
  | _ => false

/-- Whether a text may be the address of a host with brackets. -/
def isBracketed (cs : List Char) : Bool :=
  if cs.head? = some 'v' then isFutureAddress cs else isIPv6 cs && !cs.contains '/'

/-! ## Hosts -/

/-- The characters that stand for a text with a delimiter of URIs in it. -/
def delimiterForms : List Nat := [
  0x2047, 0x2048, 0x2049, 0x2100, 0x2101, 0x2105, 0x2106, 0x2A74, 0xFE13, 0xFE16, 0xFE55, 0xFE56,
  0xFE5F, 0xFE6B, 0xFF03, 0xFF0F, 0xFF1A, 0xFF1F, 0xFF20]

/-- The address that a host with brackets names. What stands in front of the last `@` does not
count. Brackets begin the rest and only a port may follow them; without brackets in the rest, the
address ends where a port begins. -/
def address? (host : List Char) : Option (List Char) :=
  let named := (Text.splitAt '@' host).getLast?.getD []
  match Text.cut '[' named with
  | (_, none) => some (Text.cut ':' named).1
  | ([], some rest) =>
    match Text.cut ']' rest with
    | (address, none) | (address, some []) | (address, some (':' :: _)) => some address
    | _ => none
  | _ => none

/-- Whether a text may be a host: brackets come in pairs and go with an address, and no character
stands for a delimiter. -/
def isHost (host : List Char) : Bool :=
  let brackets :=
    match host.contains '[', host.contains ']' with
    | false, false => true
    | true, true => (address? host).any isBracketed
    | _, _ => false
  brackets && host.all fun c => !delimiterForms.contains c.toNat

/-! ## URIs -/

/-- A character that a URI does not begin with: a control or a space. -/
def isLeading (c : Char) : Bool := c.toNat ≤ 0x20

/-- A character that is left out of a URI. -/
def isOmitted (c : Char) : Bool := c == '\t' || c == '\n' || c == '\r'

/-- A character of a scheme. -/
def isSchemeChar (c : Char) : Bool := c.isAlphanum || c == '+' || c == '-' || c == '.'

/-- Whether a text is a scheme. -/
def isScheme (cs : List Char) : Bool :=
  match cs with
  | [] => false
  | c :: _ => c.isAlpha && cs.all isSchemeChar

/-- What follows the scheme of a URI, if it has one. -/
def afterScheme (uri : List Char) : List Char :=
  match Text.cut ':' uri with
  | (scheme, some rest) => if isScheme scheme then rest else uri
  | (_, none) => uri

/-- A character that ends a host. -/
def endsHost (c : Char) : Bool := c == '/' || c == '?' || c == '#'

/-- A character that ends a path. -/
def endsPath (c : Char) : Bool := c == '?' || c == '#'

/-- The host and the path of a URI. Only two slashes introduce a host. -/
def hostAndPath (uri : List Char) : Except Error (List Char × List Char) :=
  let uri := (uri.dropWhile isLeading).filter (!isOmitted ·)
  let (host, rest) := match afterScheme uri with
    | '/' :: '/' :: rest => (rest.takeWhile (!endsHost ·), rest.dropWhile (!endsHost ·))
    | rest => ([], rest)
  if isHost host then .ok (host, rest.takeWhile (!endsPath ·)) else .error .badHost

/-- The host and the base path of a base URI under a scheme. The base path is at least a slash. -/
def split (baseUri scheme : String) : Except Error (String × String) := do
  let (host, path) ← hostAndPath (scheme.toList ++ "://".toList ++ baseUri.toList)
  return (String.ofList host, if path.isEmpty then "/" else String.ofList path)

end ApiManifest.BaseUri
