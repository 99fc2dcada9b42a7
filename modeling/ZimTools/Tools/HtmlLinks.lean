import ZimTools.Lib.Loop
import ZimTools.Std.Bytes

/-!
# The links of an HTML page

`generic_getLinks` goes through a page with a pointer into its characters, which
a NUL terminates.  It counts the `<` and `>` it passes, skips comments and the
bodies of scripts, and takes the values of the attributes `href` and `src` that
it meets inside a tag.

A pointer is the list of the characters from it on, up to the terminating NUL.
Behind the NUL there is nothing, and reading there is `none`.  Every pass that
goes on moves the pointer on, so the scan ends on every page (`scan_terminates`).
-/

namespace ZimTools

open Bytes

/-! ## Kinds of URLs -/

inductive UriKind where
  | javascript
  | mailto
  | tel
  | sip
  | geo
  | data
  | xmpp
  | news
  | urn
  | genericUri
  | protocolRelative
  | other
deriving DecidableEq, Repr

def asciitolower (s : Bytes) : Bytes :=
  s.map fun c => if char 'A' ≤ c ∧ c ≤ char 'Z' then c + 32 else c

def isAsciiAlpha (c : UInt8) : Bool :=
  (char 'A' ≤ c && c ≤ char 'Z') || (char 'a' ≤ c && c ≤ char 'z')

def isSchemeChar (c : UInt8) : Bool :=
  isAsciiAlpha c || (char '0' ≤ c && c ≤ char '9') || c == char '+' || c == char '-' ||
    c == char '.'

def isValidUriScheme : Bytes → Bool
  | [] => false
  | c :: s => isAsciiAlpha c && s.all isSchemeChar

def uriSchemes : List (Bytes × UriKind) :=
  [(str "javascript", .javascript), (str "mailto", .mailto), (str "tel", .tel), (str "sip", .sip),
    (str "geo", .geo), (str "data", .data), (str "xmpp", .xmpp), (str "news", .news),
    (str "urn", .urn)]

def specialUriSchemeKind (s : Bytes) : UriKind := (uriSchemes.lookup s).getD .genericUri

/-- `html_link::detectUriKind`. -/
def detectUriKind (inputString : Bytes) : UriKind :=
  match inputString.findIdx? (· ∈ str ":/?#") with
  | none => .other
  | some k =>
      if inputString[k]? ≠ some (char ':') then
        if k = 0 ∧ substr inputString 0 2 = str "//" then .protocolRelative else .other
      else
        let rawScheme := substr inputString 0 k
        if !isValidUriScheme rawScheme then .other
        else if inputString[k + 1]? = some (char '/') ∧ inputString[k + 2]? = some (char '/') then
          .genericUri
        else specialUriSchemeKind (asciitolower rawScheme)

inductive AttributeKind where
  | href
  | src
deriving DecidableEq, Repr

/-- The name that `generic_getLinks` looks for, with the space before it. -/
def AttributeKind.name : AttributeKind → Bytes
  | .href => str " href"
  | .src => str " src"

structure HtmlLink where
  attr : AttributeKind
  link : Bytes
deriving DecidableEq, Repr

namespace HtmlLink

def uriKind (l : HtmlLink) : UriKind := detectUriKind l.link

def isExternalUrl (l : HtmlLink) : Bool := l.uriKind != .other && l.uriKind != .data

def isInternalUrl (l : HtmlLink) : Bool := l.uriKind == .other

end HtmlLink

/-! ## Entities -/

def getHtmlEntity (core : Bytes) : Option Bytes :=
  [(str "amp", str "&"), (str "apos", str "'"), (str "quot", str "\""), (str "lt", str "<"),
    (str "gt", str ">")].lookup core

/-- One character of the loop of `decodeHtmlEntities`: the result so far, and
the text from `start` on when there is a `start`. -/
def decodeHtmlEntity : Bytes × Option Bytes → UInt8 → Bytes × Option Bytes
  | (result, start), c =>
      if c = char '&' then (result ++ start.getD [], some [c])
      else match start with
        | none => (result ++ [c], none)
        | some text =>
            if c = char ';' then (result ++ (getHtmlEntity text.tail).getD (text ++ [c]), none)
            else (result, some (text ++ [c]))

/-- The string is read up to its first NUL. -/
def decodeHtmlEntities (s : Bytes) : Bytes :=
  let (result, start) := (cStr s).foldl decodeHtmlEntity ([], none)
  result ++ start.getD []

/-! ## Pointers into a page -/

/-- Whether `strncmp(p, s, strlen(s))` is 0.  It reads up to the first character
that differs. -/
def strncmp : Bytes → Bytes → Option Bool
  | _, [] => some true
  | [], _ :: _ => none
  | c :: p, d :: s => if c = d then strncmp p s else some false

def strSkipTillRightAfter (s : Bytes) : Bytes → Option Bytes
  | [] => none
  | c :: p => do
      if c = 0 then some (c :: p)
      else if ← strncmp (c :: p) s then some ((c :: p).drop s.length)
      else strSkipTillRightAfter s p

def skipWhitespace : Bytes → Option Bytes
  | [] => none
  | c :: p => if c = char ' ' then skipWhitespace p else some (c :: p)

/-- The string in front of the next `c`, with no regard for the end of the page. -/
def getStringBeforeNext (c : UInt8) : Bytes → Option Bytes
  | [] => none
  | d :: p => if d = c then some [] else (getStringBeforeNext c p).map (d :: ·)

/-! ## The scan -/

/-- The state of the main loop of `generic_getLinks`.  The counter is an `int`, which
is taken to wrap. -/
structure LinkScan where
  p : Bytes
  ltgtBalance : Int32
  processingAScriptTag : Bool
  links : List HtmlLink
deriving DecidableEq, Repr

namespace LinkScan

def start (page : Bytes) : LinkScan := ⟨page ++ [0], 0, false, []⟩

/-- At a `<`. -/
def less (s : LinkScan) : Option LinkScan := do
  if ← strncmp s.p (str "<!--") then
    let p ← strSkipTillRightAfter (str "-->") s.p
    some { s with p }
  else
    let s := { s with ltgtBalance := s.ltgtBalance + 1, p := s.p.tail }
    if ← strncmp s.p (str "script") then
      let c ← s.p[6]?
      if c = char '>' ∨ c = char ' ' then
        some { s with processingAScriptTag := true, p := s.p.drop 6 }
      else some s
    else some s

/-- At a `>`. -/
def greater (s : LinkScan) : Option LinkScan := do
  let s := { s with ltgtBalance := s.ltgtBalance - 1 }
  if s.processingAScriptTag then
    let p ← strSkipTillRightAfter (str "</script>") s.p
    some { s with p, processingAScriptTag := false }
  else some { s with p := s.p.tail }

/-- Behind the name of an attribute of the kind `attr`. -/
def value (s : LinkScan) (attr : AttributeKind) : Option LinkScan := do
  let p ← skipWhitespace s.p
  let c ← p.head?
  let p := p.tail
  if c ≠ char '=' then some { s with p }
  else
    let p ← skipWhitespace p
    let delimiter ← p.head?
    let p := p.tail
    if delimiter ≠ char '\'' ∧ delimiter ≠ char '"' then some { s with p }
    else
      let link ← getStringBeforeNext delimiter p
      some { s with
        links := s.links ++ [⟨attr, decodeHtmlEntities link⟩]
        p := p.drop (link.length + 1) }

/-- At any other character inside a tag. -/
def insideTag (s : LinkScan) : Option LinkScan := do
  if ← strncmp s.p (str " href") then value { s with p := s.p.drop 5 } .href
  else if ← strncmp s.p (str " src") then value { s with p := s.p.drop 4 } .src
  else some { s with p := s.p.tail }

/-- At a character other than NUL. -/
def next (s : LinkScan) (c : UInt8) : Option LinkScan :=
  if c = char '<' then s.less
  else if c = char '>' then s.greater
  else if s.ltgtBalance ≠ 1 then some { s with p := s.p.tail }
  else s.insideTag

/-- One pass of the loop, which `none` leaves on a read behind the page. -/
def pass (s : LinkScan) : LinkScan ⊕ Option (List HtmlLink) :=
  match s.p.head? with
  | none => .inr none
  | some c =>
      if c = 0 then .inr (some s.links)
      else match s.next c with
        | none => .inr none
        | some s' => .inl s'

end LinkScan

theorem strncmp_append (s p : Bytes) : strncmp (s ++ p) s = some true := by
  induction s with
  | nil => simp [strncmp]
  | cons c s ih => rw [List.cons_append, strncmp, if_pos rfl, ih]

/-! ## Attributes -/

/-- A name has its space and then its letters. -/
theorem AttributeKind.name_cons (attr : AttributeKind) :
    attr.name = char ' ' :: attr.name.tail := by
  cases attr <;> rfl

def spaces (n : Nat) : Bytes := List.replicate n (char ' ')

/-- A quotation mark. -/
def IsQuote (c : UInt8) : Prop := c = char '\'' ∨ c = char '"'

instance (c : UInt8) : Decidable (IsQuote c) := inferInstanceAs (Decidable (_ ∨ _))

theorem IsQuote.ne_space {c : UInt8} (h : IsQuote c) : c ≠ char ' ' := by
  rcases h with rfl | rfl <;> decide

theorem IsQuote.ne_zero {c : UInt8} (h : IsQuote c) : c ≠ 0 := by
  rcases h with rfl | rfl <;> decide

theorem not_isQuote {c : UInt8} : ¬ IsQuote c ↔ c ≠ char '\'' ∧ c ≠ char '"' := not_or

theorem skipWhitespace_spaces (n : Nat) {c : UInt8} (hc : c ≠ char ' ') (p : Bytes) :
    skipWhitespace (spaces n ++ c :: p) = some (c :: p) := by
  induction n with
  | zero => simp [spaces, skipWhitespace, hc]
  | succ n ih =>
      have hcons : spaces (n + 1) ++ c :: p = char ' ' :: (spaces n ++ c :: p) := by
        simp [spaces, List.replicate_succ]
      rw [hcons, skipWhitespace, if_pos rfl, ih]

theorem getStringBeforeNext_append {c : UInt8} {a : Bytes} (ha : c ∉ a) (p : Bytes) :
    getStringBeforeNext c (a ++ c :: p) = some a := by
  induction a with
  | nil => simp [getStringBeforeNext]
  | cons d a ih =>
      have hd : d ≠ c := fun hd => ha (hd ▸ List.mem_cons_self ..)
      rw [List.cons_append, getStringBeforeNext, if_neg hd,
        ih fun hmem => ha (List.mem_cons_of_mem _ hmem)]
      rfl

theorem getStringBeforeNext_eq_none {c : UInt8} {p : Bytes} (h : c ∉ p) :
    getStringBeforeNext c p = none := by
  induction p with
  | nil => rfl
  | cons d p ih =>
      have hd : d ≠ c := fun hd => h (hd ▸ List.mem_cons_self ..)
      rw [getStringBeforeNext, if_neg hd, ih fun hmem => h (List.mem_cons_of_mem _ hmem)]
      rfl

namespace LinkScan

variable {s : LinkScan} (attr : AttributeKind)

/-- The name of an attribute is recognised. -/
theorem insideTag_name {p : Bytes} (hs : s.p = attr.name ++ p) :
    s.insideTag = value { s with p } attr := by
  cases attr with
  | href =>
      have hname : strncmp s.p (str " href") = some true := by
        rw [hs]
        exact strncmp_append _ _
      have hdrop : s.p.drop 5 = p := by
        rw [hs]
        rfl
      rw [insideTag, hname, hdrop]
      rfl
  | src =>
      have hother : strncmp s.p (str " href") = some false := by
        rw [hs]
        rfl
      have hname : strncmp s.p (str " src") = some true := by
        rw [hs]
        exact strncmp_append _ _
      have hdrop : s.p.drop 4 = p := by
        rw [hs]
        rfl
      rw [insideTag, hother, hname, hdrop]
      rfl

/-- The character that is not a `=` is skipped. -/
theorem value_of_ne_equals (n : Nat) {c : UInt8} {p : Bytes} (hs : s.p = spaces n ++ c :: p)
    (hspace : c ≠ char ' ') (hc : c ≠ char '=') : s.value attr = some { s with p } := by
  rw [value, hs, skipWhitespace_spaces n hspace]
  simp only [Option.bind_eq_bind, Option.bind_some, List.head?_cons, List.tail_cons]
  rw [if_pos hc]

/-- Behind the `=` the value is what the rest is. -/
theorem value_of_equals (n m : Nat) {c : UInt8} {p : Bytes}
    (hs : s.p = spaces n ++ char '=' :: (spaces m ++ c :: p)) (hspace : c ≠ char ' ') :
    s.value attr =
      if c ≠ char '\'' ∧ c ≠ char '"' then some { s with p }
      else (getStringBeforeNext c p).bind fun link => some { s with
        links := s.links ++ [⟨attr, decodeHtmlEntities link⟩]
        p := p.drop (link.length + 1) } := by
  rw [value, hs, skipWhitespace_spaces n (by decide)]
  simp only [Option.bind_eq_bind, Option.bind_some, List.head?_cons, List.tail_cons]
  rw [if_neg (by simp), skipWhitespace_spaces m hspace]
  simp only [Option.bind_some, List.head?_cons, List.tail_cons]

/-- So is the character that is not a quote. -/
theorem value_of_ne_quote (n m : Nat) {c : UInt8} {p : Bytes}
    (hs : s.p = spaces n ++ char '=' :: (spaces m ++ c :: p)) (hspace : c ≠ char ' ')
    (hc : ¬ IsQuote c) : s.value attr = some { s with p } := by
  rw [value_of_equals attr n m hs hspace, if_pos (not_isQuote.mp hc)]

/-- A quoted value is taken. -/
theorem value_of_quoted (n m : Nat) {q : UInt8} {v p : Bytes}
    (hs : s.p = spaces n ++ char '=' :: (spaces m ++ q :: (v ++ q :: p))) (hq : IsQuote q)
    (hv : q ∉ v) :
    s.value attr = some { s with links := s.links ++ [⟨attr, decodeHtmlEntities v⟩], p } := by
  have hquote : ¬ (q ≠ char '\'' ∧ q ≠ char '"') := fun h => not_isQuote.mpr h hq
  have hdrop : (v ++ q :: p).drop (v.length + 1) = p := by
    rw [List.drop_append]
    simp
  rw [value_of_equals attr n m hs hq.ne_space, if_neg hquote, getStringBeforeNext_append hv,
    Option.bind_some, hdrop]

/-- A value without its closing quote is not. -/
theorem value_of_open (n m : Nat) {q : UInt8} {v : Bytes}
    (hs : s.p = spaces n ++ char '=' :: (spaces m ++ q :: v)) (hq : IsQuote q) (hv : q ∉ v) :
    s.value attr = none := by
  have hquote : ¬ (q ≠ char '\'' ∧ q ≠ char '"') := fun h => not_isQuote.mpr h hq
  rw [value_of_equals attr n m hs hq.ne_space, if_neg hquote, getStringBeforeNext_eq_none hv]
  rfl

end LinkScan

/-! ## Termination -/

theorem strSkip_length {s : Bytes} : ∀ {p r : Bytes},
    strSkipTillRightAfter s p = some r → r.length ≤ p.length
  | [], _, h => nomatch h
  | c :: p, r, h => by
      rw [strSkipTillRightAfter] at h
      split at h
      · rw [← Option.some.inj h]
      · cases hcmp : strncmp (c :: p) s with
        | none =>
            rw [hcmp] at h
            exact nomatch h
        | some b =>
            rw [hcmp] at h
            cases b with
            | true =>
                rw [← Option.some.inj h]
                simp
            | false =>
                have ih := strSkip_length (p := p) (r := r) (by simpa using h)
                exact Nat.le_succ_of_le ih

/-- Where the string is not, something is skipped. -/
theorem strSkip_lt {s p r : Bytes} {c : UInt8} (hc : c ≠ 0)
    (hcmp : strncmp (c :: p) s = some false) (h : strSkipTillRightAfter s (c :: p) = some r) :
    r.length < (c :: p).length := by
  rw [strSkipTillRightAfter, if_neg hc, hcmp] at h
  exact Nat.lt_succ_of_le (strSkip_length (by simpa using h))

theorem skipWhitespace_length : ∀ {p r : Bytes}, skipWhitespace p = some r → r.length ≤ p.length
  | [], _, h => nomatch h
  | c :: p, r, h => by
      rw [skipWhitespace] at h
      split at h
      · exact Nat.le_succ_of_le (skipWhitespace_length h)
      · rw [← Option.some.inj h]

namespace LinkScan

theorem less_length {s s' : LinkScan} {p : Bytes} (hp : s.p = char '<' :: p)
    (h : s.less = some s') : s'.p.length < s.p.length := by
  simp only [less, hp, Option.bind_eq_bind, Option.bind_eq_some_iff, List.tail_cons] at h
  obtain ⟨comment, -, h⟩ := h
  split at h
  · obtain ⟨q, hq, h⟩ := Option.bind_eq_some_iff.mp h
    rw [← Option.some.inj h, hp]
    exact strSkip_lt (by decide) rfl hq
  · obtain ⟨script, -, h⟩ := Option.bind_eq_some_iff.mp h
    split at h
    · obtain ⟨c, -, h⟩ := Option.bind_eq_some_iff.mp h
      split at h <;> rw [← Option.some.inj h, hp]
      · change (p.drop 6).length < p.length + 1
        rw [List.length_drop]
        omega
      · simp
    · rw [← Option.some.inj h, hp]
      simp

theorem greater_length {s s' : LinkScan} {p : Bytes} (hp : s.p = char '>' :: p)
    (h : s.greater = some s') : s'.p.length < s.p.length := by
  simp only [greater, hp, Option.bind_eq_bind, List.tail_cons] at h
  split at h
  · obtain ⟨q, hq, h⟩ := Option.bind_eq_some_iff.mp h
    rw [← Option.some.inj h, hp]
    exact strSkip_lt (by decide) rfl hq
  · rw [← Option.some.inj h, hp]
    simp

theorem value_length {s s' : LinkScan} {attr : AttributeKind} (h : s.value attr = some s') :
    s'.p.length ≤ s.p.length := by
  simp only [value, Option.bind_eq_bind, Option.bind_eq_some_iff] at h
  obtain ⟨p, hp, c, -, h⟩ := h
  have hlength := skipWhitespace_length hp
  split at h
  · rw [← Option.some.inj h]
    simp
    omega
  · obtain ⟨q, hq, h⟩ := Option.bind_eq_some_iff.mp h
    obtain ⟨delimiter, -, h⟩ := Option.bind_eq_some_iff.mp h
    have hlength' := skipWhitespace_length hq
    rw [List.length_tail] at hlength'
    split at h
    · rw [← Option.some.inj h]
      simp
      omega
    · obtain ⟨link, -, h⟩ := Option.bind_eq_some_iff.mp h
      rw [← Option.some.inj h]
      simp
      omega

theorem insideTag_length {s s' : LinkScan} {c : UInt8} {p : Bytes} (hp : s.p = c :: p)
    (h : s.insideTag = some s') : s'.p.length < s.p.length := by
  simp only [insideTag, Option.bind_eq_bind, Option.bind_eq_some_iff] at h
  obtain ⟨href, -, h⟩ := h
  split at h
  · have hle := value_length h
    simp [hp] at hle ⊢
    omega
  · obtain ⟨src, -, h⟩ := Option.bind_eq_some_iff.mp h
    split at h
    · have hle := value_length h
      simp [hp] at hle ⊢
      omega
    · rw [← Option.some.inj h]
      simp [hp]

/-- Every pass that goes on moves the pointer on. -/
theorem pass_length {s s' : LinkScan} (h : s.pass = .inl s') : s'.p.length < s.p.length := by
  rw [pass] at h
  cases hp : s.p with
  | nil => simp [hp] at h
  | cons c p =>
      rw [← hp]
      simp only [hp, List.head?_cons] at h
      split at h
      · exact nomatch h
      · cases hnext : s.next c with
        | none => simp [hnext] at h
        | some r =>
            obtain rfl : r = s' := by simpa [hnext] using h
            rw [next] at hnext
            split at hnext
            · next hc => exact less_length (hc ▸ hp) hnext
            · split at hnext
              · next hc => exact greater_length (hc ▸ hp) hnext
              · split at hnext
                · rw [← Option.some.inj hnext]
                  simp [hp]
                · exact insideTag_length hp hnext

end LinkScan

theorem scan_terminates (page : Bytes) :
    (Loop.run LinkScan.pass (page.length + 2) (.start page)).isSome = true := by
  obtain ⟨r, hr, -⟩ := Loop.run_total LinkScan.pass (fun _ => True) (fun _ => True)
    (fun s => s.p.length) (fun _ _ _ h => ⟨trivial, LinkScan.pass_length h⟩)
    (fun _ _ _ _ => trivial) (page.length + 2) (.start page) trivial (by simp [LinkScan.start])
  rw [hr]
  rfl

/-- `generic_getLinks`, which is `none` when it reads behind the page. -/
def genericGetLinks (page : Bytes) : Option (List HtmlLink) :=
  (Loop.run LinkScan.pass (page.length + 2) (.start page)).get (scan_terminates page)

example : genericGetLinks (str "<a href = 'x&amp;y'>") = some [⟨.href, str "x&y"⟩] := by decide

example : genericGetLinks (str "<a href") = none := by decide

end ZimTools
