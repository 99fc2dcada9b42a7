import ZimTools.Tools.DecodeUrl

/-!
# Internal link resolution

`InternalLinkResolver` of `tools.cpp`.  A link is resolved on flat strings: a
resolved path that grows and shrinks, the separator to put before the next
segment, and the terminator to put behind the last one.

The scan of the URL by `std::find` with `segStart <= urlEnd` visits the pieces
between the slashes, the last one included when it is empty, so the loop here
runs over `List.splitOn`.
-/

namespace ZimTools

open Bytes

/-- The exceptions of link resolution, with the URL they name. -/
inductive LinkError where
  | absolutePathURL (url : Bytes)
  | outOfBoundsURL (url : Bytes)
deriving DecidableEq, Repr

/-- `what()` of the exceptions. -/
def LinkError.what : LinkError → Bytes
  | .absolutePathURL url => str "Absolute path URL: " ++ url
  | .outOfBoundsURL url => str "Out-of-bounds URL: " ++ url

/-- `getBasePath`. -/
def getBasePath (zimPath : Bytes) : Bytes :=
  match findLastOf zimPath (str "/") with
  | none => []
  | some pos => zimPath.take (if pos = 0 then 1 else pos)

/-- `dropLastSegmentOfThePath`: the shortened path, or nothing where the code
returns `false`. -/
def dropLastSegmentOfThePath (path : Bytes) : Option Bytes :=
  if path = [] then none
  else
    match findLastOf path (str "/") with
    | none => some []
    | some 0 => some (path.take (if path = str "/" then 0 else 1))
    | some i => some (path.take i)

/-- `getPathSeparatorFor`. -/
def getPathSeparatorFor (path : Bytes) : Bytes :=
  if path = [] ∨ path = str "/" then [] else str "/"

/-- `stripFragmentAndOrSearchComponent`. -/
def stripFragmentAndOrSearchComponent (url : Bytes) : Bytes :=
  match findLastOf url (str "#?") with
  | none => url
  | some endOfPathComponent => url.take endOfPathComponent

/-- The variables of the loop of `resolveLinkTarget`. -/
structure ResolveState where
  resolvedPath : Bytes
  pathTerminator : Bytes
  pathSeparator : Bytes
deriving DecidableEq, Repr

/-- One segment `p` of the URL. -/
def resolveSegment (url : Bytes) (st : ResolveState) (p : Bytes) : Except LinkError ResolveState :=
  if p = str "." then
    let sep := getPathSeparatorFor st.resolvedPath
    .ok { st with pathTerminator := sep, pathSeparator := sep }
  else if p = str ".." then
    match dropLastSegmentOfThePath st.resolvedPath with
    | none => .error (.outOfBoundsURL url)
    | some path =>
        let sep := getPathSeparatorFor path
        .ok ⟨path, sep, sep⟩
  else .ok ⟨st.resolvedPath ++ st.pathSeparator ++ p, [], str "/"⟩

/-- `InternalLinkResolver`. -/
structure InternalLinkResolver where
  zimEntryPath : Bytes
  basePath : Bytes
deriving DecidableEq, Repr

/-- The constructor of `InternalLinkResolver`. -/
def InternalLinkResolver.ofPath (zimPath : Bytes) : InternalLinkResolver :=
  ⟨zimPath, getBasePath zimPath⟩

/-- The loop over the segments of the decoded URL. -/
def InternalLinkResolver.resolveSegments (r : InternalLinkResolver) (url : Bytes) :
    Except LinkError ResolveState :=
  (url.splitOn (char '/')).foldlM (resolveSegment url)
    ⟨r.basePath, [], getPathSeparatorFor r.basePath⟩

/-- `InternalLinkResolver::resolveLinkTarget`. -/
def InternalLinkResolver.resolveLinkTarget (r : InternalLinkResolver) (url : Bytes) :
    Except LinkError Bytes :=
  match stripFragmentAndOrSearchComponent url with
  | [] => .ok r.zimEntryPath
  | c :: rest =>
      if c = char '/' then .error (.absolutePathURL (c :: rest))
      else do
        let st ← r.resolveSegments (decodeUrl (c :: rest))
        pure (st.resolvedPath ++ st.pathTerminator)

/-- `resolveLinkTarget(url, zimPath)`. -/
def resolveLinkTarget (url zimPath : Bytes) : Except LinkError Bytes :=
  (InternalLinkResolver.ofPath zimPath).resolveLinkTarget url

/-! ## Stripping the query and the fragment -/

/-- The bytes that start a query or a fragment. -/
def isUrlDelimiter (c : UInt8) : Bool := c == char '?' || c == char '#'

theorem mem_delimiters {c : UInt8} : c ∈ str "#?" ↔ isUrlDelimiter c = true := by
  have hstr : str "#?" = [char '#', char '?'] := rfl
  simp [hstr, isUrlDelimiter, or_comm]

/-- The cut is at the last delimiter. -/
theorem strip_append_cons (a : Bytes) {c : UInt8} {b : Bytes} (hc : isUrlDelimiter c = true)
    (hb : ∀ x ∈ b, isUrlDelimiter x = false) :
    stripFragmentAndOrSearchComponent (a ++ c :: b) = a := by
  have hlast : findLastOf (a ++ c :: b) (str "#?") = some a.length := by
    refine findLastOf_append_cons a (mem_delimiters.mpr hc) fun x hx hmem => ?_
    rw [mem_delimiters, hb x hx] at hmem
    exact absurd hmem (by decide)
  simp [stripFragmentAndOrSearchComponent, hlast]

theorem strip_of_clean {a : Bytes} (ha : ∀ x ∈ a, isUrlDelimiter x = false) :
    stripFragmentAndOrSearchComponent a = a := by
  have hnone : findLastOf a (str "#?") = none := by
    refine findLastOf_eq_none fun x hx hmem => ?_
    rw [mem_delimiters, ha x hx] at hmem
    exact absurd hmem (by decide)
  simp [stripFragmentAndOrSearchComponent, hnone]

/-- Resolution looks at a URL only through its stripped form. -/
theorem resolveLinkTarget_congr {u v : Bytes}
    (h : stripFragmentAndOrSearchComponent u = stripFragmentAndOrSearchComponent v) (z : Bytes) :
    resolveLinkTarget u z = resolveLinkTarget v z := by
  simp only [resolveLinkTarget, InternalLinkResolver.resolveLinkTarget, h]

/-- A URL stripped to nothing is the entry itself. -/
theorem resolveLinkTarget_of_strip_nil {u : Bytes}
    (h : stripFragmentAndOrSearchComponent u = []) (z : Bytes) :
    resolveLinkTarget u z = .ok z := by
  simp only [resolveLinkTarget, InternalLinkResolver.resolveLinkTarget, h]
  rfl

/-- A URL that strips to a relative one is resolved segment by segment. -/
theorem resolveLinkTarget_of_strip_cons {u : Bytes} {c : UInt8} {rest : Bytes}
    (h : stripFragmentAndOrSearchComponent u = c :: rest) (hc : c ≠ char '/') (z : Bytes) :
    resolveLinkTarget u z =
      ((InternalLinkResolver.ofPath z).resolveSegments (decodeUrl (c :: rest))).map
        fun st => st.resolvedPath ++ st.pathTerminator := by
  simp only [resolveLinkTarget, InternalLinkResolver.resolveLinkTarget, h, if_neg hc]
  rfl

/-! ## The influence of a query and a fragment -/

/-- The same result, or the same kind of exception. -/
def SameOutcome : Except LinkError Bytes → Except LinkError Bytes → Prop
  | .ok a, .ok b => a = b
  | .error (.absolutePathURL _), .error (.absolutePathURL _) => True
  | .error (.outOfBoundsURL _), .error (.outOfBoundsURL _) => True
  | _, _ => False

theorem SameOutcome.refl (r : Except LinkError Bytes) : SameOutcome r r := by
  cases r with
  | ok a => rfl
  | error e => cases e <;> trivial

theorem SameOutcome.eq_of_ok {r : Except LinkError Bytes} {b : Bytes}
    (h : SameOutcome r (.ok b)) : r = .ok b := by
  cases r with
  | ok a => rw [show a = b from h]
  | error e => cases e <;> exact absurd h id

/-- With at most one delimiter the whole suffix is cut off. -/
theorem strip_append_suffix {p s : Bytes} (hp : ∀ x ∈ p, isUrlDelimiter x = false)
    (hs : s = [] ∨ ∃ c t, s = c :: t ∧ isUrlDelimiter c = true)
    (hcount : s.countP isUrlDelimiter ≤ 1) :
    stripFragmentAndOrSearchComponent (p ++ s) = stripFragmentAndOrSearchComponent p := by
  rcases hs with rfl | ⟨c, t, rfl, hc⟩
  · rw [List.append_nil]
  · rw [List.countP_cons_of_pos hc] at hcount
    have ht : ∀ x ∈ t, isUrlDelimiter x = false := by
      have hzero : t.countP isUrlDelimiter = 0 := by omega
      simpa [List.countP_eq_zero] using hzero
    rw [strip_append_cons p hc ht, strip_of_clean hp]

/-- From two delimiters on, what is left of the suffix still starts with the
first one. -/
theorem strip_suffix_cons {c : UInt8} {t : Bytes} (ht : t.countP isUrlDelimiter ≠ 0) :
    ∃ t', stripFragmentAndOrSearchComponent (c :: t) = c :: t' := by
  rcases last_split (str "#?") t with hnone | ⟨a, d, b, rfl, hd, hb⟩
  · refine absurd (List.countP_eq_zero.mpr fun x hx hdx => ?_) ht
    exact hnone x hx (mem_delimiters.mpr hdx)
  · refine ⟨a, ?_⟩
    rw [← List.cons_append]
    refine strip_append_cons (c :: a) (mem_delimiters.mp hd) fun x hx => ?_
    have := hb x hx
    rw [mem_delimiters] at this
    simpa using this

/-- A suffix leaves the resolution of every link in every entry alone exactly
when it holds at most one delimiter. -/
theorem suffix_never_matters_iff (s : Bytes)
    (hs : s = [] ∨ ∃ c t, s = c :: t ∧ isUrlDelimiter c = true) :
    (∀ z p : Bytes, (∀ x ∈ p, isUrlDelimiter x = false) →
        SameOutcome (resolveLinkTarget (p ++ s) z) (resolveLinkTarget p z)) ↔
      s.countP isUrlDelimiter ≤ 1 := by
  constructor
  · intro hsame
    by_contra hcount
    obtain ⟨c, t, rfl, hc⟩ : ∃ c t, s = c :: t ∧ isUrlDelimiter c = true := by
      rcases hs with rfl | h
      · simp at hcount
      · exact h
    rw [List.countP_cons_of_pos hc] at hcount
    -- Two entries of one directory: the empty link is each entry itself, and
    -- what is left of the suffix resolves to the same path in both.
    obtain ⟨t', hstrip⟩ := strip_suffix_cons (c := c) (t := t) (by omega)
    have hslash : c ≠ char '/' := by
      rintro rfl
      exact absurd hc (by decide)
    have hx := hsame (str "x") [] (by simp)
    have hy := hsame (str "y") [] (by simp)
    rw [List.nil_append, resolveLinkTarget_of_strip_nil (u := []) rfl] at hx hy
    have hsameBase : resolveLinkTarget (c :: t) (str "x") = resolveLinkTarget (c :: t) (str "y") := by
      rw [resolveLinkTarget_of_strip_cons hstrip hslash, resolveLinkTarget_of_strip_cons hstrip hslash]
      rfl
    rw [SameOutcome.eq_of_ok hx, SameOutcome.eq_of_ok hy] at hsameBase
    exact absurd hsameBase (by decide)
  · intro hcount z p hp
    rw [resolveLinkTarget_congr (strip_append_suffix hp hs hcount)]
    exact SameOutcome.refl _

/-- A query alone never matters. -/
theorem suffix_never_matters_query :
    SameOutcome (resolveLinkTarget (str "faq?q=who") (str "help/index"))
      (resolveLinkTarget (str "faq") (str "help/index")) :=
  (suffix_never_matters_iff (str "?q=who") (Or.inr ⟨char '?', str "q=who", rfl, rfl⟩)).mpr
    (by decide) (str "help/index") (str "faq") (by simp [str, char, isUrlDelimiter])

/-- A query followed by a fragment does: the query is taken for a part of the
path. -/
theorem query_and_fragment_matter :
    ¬ ∀ z p s : Bytes, (∀ x ∈ p, isUrlDelimiter x = false) →
        (s = [] ∨ ∃ c t, s = c :: t ∧ isUrlDelimiter c = true) →
        SameOutcome (resolveLinkTarget (p ++ s) z) (resolveLinkTarget p z) := by
  intro h
  have hclean : ∀ x ∈ str "faq", isUrlDelimiter x = false := by simp [str, char, isUrlDelimiter]
  have hbad := h [] (str "faq") (str "?lang=en#top") hclean
    (Or.inr ⟨char '?', str "lang=en#top", rfl, rfl⟩)
  have hleft : resolveLinkTarget (str "faq?lang=en#top") [] = .ok (str "faq?lang=en") := by decide
  have hright : resolveLinkTarget (str "faq") [] = .ok (str "faq") := by decide
  rw [show str "faq" ++ str "?lang=en#top" = str "faq?lang=en#top" from rfl, hleft, hright] at hbad
  exact absurd (show str "faq?lang=en" = str "faq" from hbad) (by decide)

end ZimTools
