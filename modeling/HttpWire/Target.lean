import HttpWire.Bytes

/-!
# Request targets of uris

A request line carries the path and query of its uri and nothing else of it. A uri
comes in one of four forms: a path, the lone asterisk, an absolute uri (a scheme,
`://` and an authority before the path), or an authority alone.
-/

namespace HttpWire.Target

/-- What stands before the fragment. -/
def withoutFragment (uri : List Char) : List Char :=
  uri.takeWhile (· ≠ '#')

/-- What follows the first `://`, if there is one. -/
def afterScheme? : List Char → Option (List Char)
  | ':' :: '/' :: '/' :: rest => some rest
  | _ :: rest => afterScheme? rest
  | [] => none

/-- What follows the authority. -/
def afterAuthority (uri : List Char) : List Char :=
  uri.dropWhile (fun c => c ≠ '/' && c ≠ '?' && c ≠ '#')

/-- The path and query of a uri, as characters; an absolute uri without them and
an authority alone have the root path. -/
def pathAndQuery (uri : List Char) : List Char :=
  if uri.head? = some '/' then withoutFragment uri
  else if uri = ['*'] then uri
  else
    match afterScheme? uri with
    | none => ['/']
    | some rest =>
      let path := withoutFragment (afterAuthority rest)
      if path.isEmpty then ['/'] else path

/-- The request target for a uri. -/
def ofUri (uri : String) : Bytes :=
  Bytes.ofString (String.ofList (pathAndQuery uri.toList))

end HttpWire.Target
