import ZimTools.Std.Bytes

/-!
# Relative paths and redirect pages

`computeRelativePath` gives the path that leads from one entry to another, and
`httpRedirectHtml` the page that takes a browser there.
-/

namespace ZimTools

/-- `split`. -/
def split (s : Bytes) (delim : UInt8) : List Bytes := s.splitOn delim

/-- Appends a segment, behind a slash unless nothing or a slash precedes it. -/
def appendSegment (r segment : Bytes) : Bytes :=
  if r ≠ [] ∧ r.getLast? ≠ some (char '/') then r ++ str "/" ++ segment else r ++ segment

/-- How many segments `std::mismatch` finds equal. -/
def commonLength : List Bytes → List Bytes → Nat
  | x :: xs, y :: ys => if x = y then commonLength xs ys + 1 else 0
  | _, _ => 0

def getRelativePath (basePath targetPath : Bytes) : Bytes :=
  let b := split basePath (char '/')
  let t := split targetPath (char '/')
  let l := min (b.length - 1) t.length
  let common := commonLength (b.take l) t
  let ups := (b.length - common) + if common = t.length then 1 else 0
  (List.replicate (ups - 1) (str "..") ++ t.drop common).foldl appendSegment []

/-- `back()` of an empty target is undefined; here it is no slash. -/
def computeRelativePath (basePath targetPath : Bytes) : Bytes :=
  if targetPath.getLast? = some (char '/') then
    if basePath = targetPath then str "./"
    else getRelativePath basePath targetPath.dropLast ++ str "/"
  else getRelativePath basePath targetPath

/-! ## Redirect pages -/

def isAsciiAlphaNumeric (c : UInt8) : Bool :=
  (char 'a' ≤ c && c ≤ char 'z') || (char 'A' ≤ c && c ≤ char 'Z') ||
    (char '0' ≤ c && c ≤ char '9')

/-- The array of the source has a tenth element without a value, which is NUL. -/
def isReservedUrlChar (c : UInt8) : Bool := c ∈ str ";,?:@&=+$" ++ [0]

def needsEscape (c : UInt8) (encodeReserved : Bool) : Bool :=
  if isAsciiAlphaNumeric c then false
  else if isReservedUrlChar c then encodeReserved
  else c ∉ str "-_.!~*'()/"

def upperHexDigit (n : Nat) : UInt8 := if n < 10 then char '0' + .ofNat n else char 'A' + .ofNat (n - 10)

/-- A byte as a stream in the mode `std::hex << std::uppercase` writes it in a
field of width 2, which it fills with a space. -/
def hexField (c : UInt8) : Bytes :=
  if c.toNat < 16 then [char ' ', upperHexDigit c.toNat]
  else [upperHexDigit (c.toNat / 16), upperHexDigit (c.toNat % 16)]

def urlEncode (value : Bytes) (encodeReserved : Bool) : Bytes :=
  value.flatMap fun c => if needsEscape c encodeReserved then char '%' :: hexField c else [c]

def httpRedirectHtml (redirectUrl : Bytes) : Bytes :=
  str "<!DOCTYPE html>" ++ str "<html>" ++ str "<head>" ++
    str "<meta http-equiv=\"Content-Type\" content=\"text/html; charset=utf-8\" />" ++
    str "<meta http-equiv=\"refresh\" content=\"0;url=" ++ urlEncode redirectUrl true ++
    str "\" />" ++ str "</head>" ++ str "<body></body>" ++ str "</html>"

end ZimTools
