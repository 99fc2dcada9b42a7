import ZimTools.Tools.RelativeResolution
import ZimTools.Tools.UriKinds
import ZimTools.Zimrecreate.PatchItem

/-!
# The links of a patched item

No search string of `PatchItem` has a quote behind its first byte, so that the
text behind each quote of a content is rewritten on its own
(`patched_quote`).  Of the text behind a quote only the start is.

A link of the old scheme goes up from the article to its namespace and then
down from the namespace of its target.  Out of the one subdirectory `../` is
left of the way up, and the replacements that follow take it for a way to a
namespace when the target begins with the name of one.  In the root nothing is
left in front of the target, whose first segment may look like a scheme.  In
any other case the new link denotes the target (`patched_link_iff`).
-/

namespace ZimTools.Zimrecreate

open Bytes DotSegments PatchItem

/-! ## The text behind a quote -/

/-- Without quotes. -/
def QuoteFree (s : Bytes) : Prop := ∀ c ∈ s, ¬ IsQuote c

theorem QuoteFree.append {s t : Bytes} (hs : QuoteFree s) (ht : QuoteFree t) :
    QuoteFree (s ++ t) :=
  List.forall_mem_append.mpr ⟨hs, ht⟩

theorem QuoteFree.drop {s : Bytes} (hs : QuoteFree s) (n : Nat) : QuoteFree (s.drop n) :=
  fun c hc => hs c (List.mem_of_mem_drop hc)

/-- The start of a text, replaced. -/
def rewriteStart (old new text : Bytes) : Bytes :=
  if old.isPrefixOf text then new ++ text.drop old.length else text

theorem rewriteStart_append (old new text : Bytes) :
    rewriteStart old new (old ++ text) = new ++ text := by
  rw [rewriteStart, if_pos (List.isPrefixOf_iff_prefix.mpr (List.prefix_append ..)), List.drop_left]

theorem rewriteStart_of_not {old new text : Bytes} (h : ¬ old <+: text) :
    rewriteStart old new text = text :=
  if_neg fun hprefix => h (List.isPrefixOf_iff_prefix.mp hprefix)

theorem QuoteFree.rewriteStart {old new text : Bytes} (hnew : QuoteFree new)
    (htext : QuoteFree text) : QuoteFree (rewriteStart old new text) := by
  rw [Zimrecreate.rewriteStart]
  split
  · exact hnew.append (htext.drop _)
  · exact htext

/-- A content is rewritten behind each of its quotes on its own, and behind a
quote `c` the text in front of the next one by `rewrite c`. -/
structure QuoteWise (f : Bytes → Bytes) (rewrite : UInt8 → Bytes → Bytes) : Prop where
  append : ∀ {c}, IsQuote c → ∀ a b, f (a ++ c :: b) = f a ++ f (c :: b)
  head : ∀ {c}, IsQuote c → ∀ b, ∃ b', f (c :: b) = c :: b'
  quote : ∀ {c}, IsQuote c → ∀ {text}, QuoteFree text → f (c :: text) = c :: rewrite c text
  free : ∀ {c}, IsQuote c → ∀ {text}, QuoteFree text → QuoteFree (rewrite c text)

theorem QuoteWise.comp {f g : Bytes → Bytes} {rewrite rewrite' : UInt8 → Bytes → Bytes}
    (hg : QuoteWise g rewrite') (hf : QuoteWise f rewrite) :
    QuoteWise (g ∘ f) fun c text => rewrite' c (rewrite c text) where
  append hc a b := by
    obtain ⟨b', hb⟩ := hf.head hc b
    rw [Function.comp_apply, hf.append hc, hb, hg.append hc, Function.comp_apply,
      Function.comp_apply, hb]
  head hc b := by
    obtain ⟨b', hb⟩ := hf.head hc b
    rw [Function.comp_apply, hb]
    exact hg.head hc b'
  quote hc text htext := by
    rw [Function.comp_apply, hf.quote hc htext, hg.quote hc (hf.free hc htext)]
  free hc _ htext := hg.free hc (hf.free hc htext)

theorem QuoteWise.congr {f : Bytes → Bytes} {rewrite rewrite' : UInt8 → Bytes → Bytes}
    (hf : QuoteWise f rewrite) (h : ∀ c, IsQuote c → ∀ text, rewrite c text = rewrite' c text) :
    QuoteWise f rewrite' where
  append := hf.append
  head := hf.head
  quote hc _ htext := h _ hc _ ▸ hf.quote hc htext
  free hc _ htext := h _ hc _ ▸ hf.free hc htext

theorem QuoteWise.foldl {α : Type} {f : Bytes → α → Bytes} {rewrite : Bytes → α → UInt8 → Bytes}
    {l : List α} (h : ∀ a ∈ l, QuoteWise (f · a) fun c text => rewrite text a c) :
    QuoteWise (fun content => l.foldl f content)
      fun c text => l.foldl (fun text a => rewrite text a c) text := by
  induction l with
  | nil =>
      exact ⟨fun _ _ _ => rfl, fun _ b => ⟨b, rfl⟩, fun _ _ _ => rfl, fun _ _ htext => htext⟩
  | cons a l ih =>
      obtain ⟨ha, hl⟩ := List.forall_mem_cons.mp h
      exact (ih hl).comp ha

/-! ## The replacements -/

/-- The search string must begin with a byte of the subject. -/
theorem replaceAll_of_notMem {q : UInt8} {t new s : Bytes} (h : q ∉ s) :
    replaceAll (q :: t) new s = s := by
  induction s with
  | nil => exact replaceAll_nil
  | cons c s ih =>
      have hne : ¬ q :: t <+: c :: s := fun hprefix =>
        h ((List.cons_prefix_cons.mp hprefix).1 ▸ List.mem_cons_self ..)
      rw [replaceAll_cons hne, ih fun hmem => h (List.mem_cons_of_mem c hmem)]

/-- A replacement of a text behind a quote. -/
theorem QuoteWise.replace {q : UInt8} (hq : IsQuote q) {old new : Bytes} (hold : QuoteFree old)
    (hnew : QuoteFree new) :
    QuoteWise (fun content => replaceStringInPlace content (q :: old) (q :: new))
      fun c text => if c = q then rewriteStart old new text else text where
  append {c} hc a b := by
    have hnotMem : c ∉ (q :: old).tail := fun hmem => hold c hmem hc
    simp only [replaceStringInPlace_eq_replaceAll _ (List.cons_ne_nil q old)]
    exact replaceAll_append_cons (List.cons_ne_nil q old) hnotMem a b
  head {c} _ b := by
    rw [replaceStringInPlace_eq_replaceAll _ (List.cons_ne_nil q old)]
    by_cases hprefix : q :: old <+: c :: b
    · obtain ⟨rest, hrest⟩ := hprefix
      obtain ⟨rfl, -⟩ := List.cons.inj hrest
      rw [← hrest, replaceAll_search (List.cons_ne_nil q old)]
      exact ⟨_, rfl⟩
    · exact ⟨_, replaceAll_cons hprefix⟩
  quote {c} hc text htext := by
    rw [replaceStringInPlace_eq_replaceAll _ (List.cons_ne_nil q old)]
    split_ifs with hcq
    · subst hcq
      have hnotMem : c ∉ text := fun hmem => htext c hmem hc
      by_cases hprefix : old <+: text
      · obtain ⟨rest, rfl⟩ := hprefix
        have hrest : c ∉ rest := fun hmem => hnotMem (List.mem_append_right old hmem)
        rw [rewriteStart_append, ← List.cons_append, replaceAll_search (List.cons_ne_nil c old),
          replaceAll_of_notMem hrest]
        rfl
      · have hcons : ¬ c :: old <+: c :: text :=
          fun h => hprefix (List.cons_prefix_cons.mp h).2
        rw [replaceAll_cons hcons, replaceAll_of_notMem hnotMem, rewriteStart_of_not hprefix]
    · refine replaceAll_of_notMem ?_
      rintro (- | ⟨-, hmem⟩)
      · exact hcq rfl
      · exact htext q hmem hq
  free {c} _ text htext := by
    split_ifs
    · exact hnew.rewriteStart htext
    · exact htext

/-- A level up. -/
def up : Bytes := str "../"

/-- What the two replacements for a namespace make of the text behind their quote. -/
def rewriteNamespace (text : Bytes) (ns : UInt8) : Bytes :=
  rewriteStart (up ++ ns :: str "/") [] (rewriteStart (up ++ (up ++ ns :: str "/")) up text)

/-- What all replacements make of the text behind a quote. -/
def rewritten (text : Bytes) : Bytes := namespaces.foldl rewriteNamespace text

theorem patchNamespace_quoteWise {q : UInt8} (hq : IsQuote q) {ns : UInt8} (hns : ¬ IsQuote ns) :
    QuoteWise (patchNamespace q · ns) fun c text =>
      if c = q then rewriteNamespace text ns else text := by
  have hup : QuoteFree up := forall_mem_of_all (by decide)
  have hdown : QuoteFree (ns :: str "/") :=
    List.forall_mem_cons.mpr ⟨hns, forall_mem_of_all (by decide)⟩
  have htwo := QuoteWise.replace hq (hup.append (hup.append hdown)) hup
  have hone := QuoteWise.replace hq (hup.append hdown) (List.forall_mem_nil _)
  refine QuoteWise.congr (hone.comp htwo) fun c _ text => ?_
  split_ifs <;> rfl

theorem patchQuote_quoteWise {q : UInt8} (hq : IsQuote q) :
    QuoteWise (patchQuote · q) fun c text => if c = q then rewritten text else text := by
  have hfree : QuoteFree namespaces := forall_mem_of_all (by decide)
  have hfold := QuoteWise.foldl fun ns hns => patchNamespace_quoteWise hq (hfree ns hns)
  refine hfold.congr fun c _ text => ?_
  split_ifs with hcq
  · rfl
  · exact List.foldl_fixed' (fun _ => rfl) namespaces

theorem patched_quoteWise : QuoteWise patched fun _ => rewritten := by
  have hquotes : ∀ q ∈ quotes, IsQuote q := forall_mem_of_all (by decide)
  have hfold := QuoteWise.foldl fun q hq => patchQuote_quoteWise (hquotes q hq)
  refine hfold.congr fun c hc text => ?_
  have hne : char '\'' ≠ char '"' := by decide
  obtain rfl | rfl := hc
  · simp only [quotes, List.foldl_cons, List.foldl_nil, if_true, if_neg hne]
  · simp only [quotes, List.foldl_cons, List.foldl_nil, if_true, if_neg hne.symm]

/-- The text behind a quote is rewritten on its own. -/
theorem patched_quote {q : UInt8} (hq : IsQuote q) {text : Bytes} (htext : QuoteFree text)
    (before after : Bytes) :
    patched (before ++ q :: (text ++ q :: after)) =
      patched before ++ q :: (rewritten text ++ patched (q :: after)) := by
  rw [patched_quoteWise.append hq, ← List.cons_append, patched_quoteWise.append hq,
    patched_quoteWise.quote hq htext]
  rfl

/-! ## Old links -/

section Rewriting

variable {ns : UInt8} {text : Bytes}

theorem not_up (ns : UInt8) (rest : Bytes) : ¬ up <+: ns :: char '/' :: rest := by
  rintro ⟨t, ht⟩
  obtain ⟨-, ht⟩ := List.cons.inj ht
  exact absurd (List.cons.inj ht).1 (by decide)

theorem rewriteNamespace_of_not_up (h : ¬ up <+: text) : rewriteNamespace text ns = text := by
  have htwo : ¬ up ++ (up ++ ns :: str "/") <+: text :=
    fun hprefix => h (List.IsPrefix.trans (List.prefix_append up _) hprefix)
  have hone : ¬ up ++ ns :: str "/" <+: text :=
    fun hprefix => h (List.IsPrefix.trans (List.prefix_append up _) hprefix)
  rw [rewriteNamespace, rewriteStart_of_not htwo, rewriteStart_of_not hone]

/-- One level up, only the second of the two replacements applies. -/
theorem rewriteNamespace_up (h : ¬ up <+: text) :
    rewriteNamespace (up ++ text) ns = rewriteStart (up ++ ns :: str "/") [] (up ++ text) := by
  have htwo : ¬ up ++ (up ++ ns :: str "/") <+: up ++ text := by
    intro hprefix
    have hrest : up ++ ns :: str "/" <+: text := (List.prefix_append_right_inj up).mp hprefix
    exact h (List.IsPrefix.trans (List.prefix_append up _) hrest)
  rw [rewriteNamespace, rewriteStart_of_not htwo]

theorem rewriteNamespace_up_hit (rest : Bytes) :
    rewriteNamespace (up ++ ns :: char '/' :: rest) ns = rest := by
  rw [rewriteNamespace_up (not_up ns rest)]
  exact rewriteStart_append (up ++ ns :: str "/") [] rest

theorem rewriteNamespace_up_miss (h : ¬ up <+: text) (hns : ¬ ns :: str "/" <+: text) :
    rewriteNamespace (up ++ text) ns = up ++ text := by
  rw [rewriteNamespace_up h]
  exact rewriteStart_of_not fun hprefix => hns ((List.prefix_append_right_inj up).mp hprefix)

/-- Two levels up to the namespace, one of them is left for the second replacement. -/
theorem rewriteNamespace_ups (h : ¬ up <+: text) :
    rewriteNamespace (up ++ (up ++ ns :: char '/' :: text)) ns =
      rewriteNamespace (up ++ text) ns := by
  have htwo : rewriteStart (up ++ (up ++ ns :: str "/")) up
      (up ++ (up ++ ns :: char '/' :: text)) = up ++ text :=
    rewriteStart_append (up ++ (up ++ ns :: str "/")) up text
  rw [rewriteNamespace, htwo, rewriteNamespace_up h]

theorem rewriteNamespace_ups_miss {n : UInt8} (h : n ≠ ns) :
    rewriteNamespace (up ++ (up ++ n :: char '/' :: text)) ns =
      up ++ (up ++ n :: char '/' :: text) := by
  have htwo : ¬ up ++ (up ++ ns :: str "/") <+: up ++ (up ++ n :: char '/' :: text) := by
    intro hprefix
    have hrest : ns :: str "/" <+: n :: char '/' :: text :=
      (List.prefix_append_right_inj (up ++ up)).mp hprefix
    exact h (List.cons_prefix_cons.mp hrest).1.symm
  have hone : ¬ up ++ ns :: str "/" <+: up ++ (up ++ n :: char '/' :: text) := by
    intro hprefix
    have hrest : ns :: str "/" <+: up ++ n :: char '/' :: text :=
      (List.prefix_append_right_inj up).mp hprefix
    have hslash := (List.cons_prefix_cons.mp (List.cons_prefix_cons.mp hrest).2).1
    exact absurd hslash (by decide)
  rw [rewriteNamespace, rewriteStart_of_not htwo, rewriteStart_of_not hone]

theorem foldl_of_not_up (l : List UInt8) (h : ¬ up <+: text) :
    l.foldl rewriteNamespace text = text :=
  List.foldl_fixed' (fun _ => rewriteNamespace_of_not_up h) l

/-- A way to one of the namespaces is taken away. -/
theorem foldl_up_hit {l : List UInt8} {rest : Bytes} (hns : ns ∈ l) (h : ¬ up <+: rest) :
    l.foldl rewriteNamespace (up ++ ns :: char '/' :: rest) = rest := by
  induction l with
  | nil => exact absurd hns List.not_mem_nil
  | cons m l ih =>
      rw [List.foldl_cons]
      by_cases hm : ns = m
      · rw [← hm, rewriteNamespace_up_hit]
        exact foldl_of_not_up l h
      · have hmiss : ¬ m :: str "/" <+: ns :: char '/' :: rest :=
          fun hprefix => hm (List.cons_prefix_cons.mp hprefix).1.symm
        rw [rewriteNamespace_up_miss (not_up ns rest) hmiss]
        exact ih ((List.mem_cons.mp hns).resolve_left hm)

theorem foldl_up_miss {l : List UInt8} (h : ¬ up <+: text)
    (hmiss : ∀ ns ∈ l, ¬ ns :: str "/" <+: text) :
    l.foldl rewriteNamespace (up ++ text) = up ++ text := by
  induction l with
  | nil => rfl
  | cons ns l ih =>
      obtain ⟨hns, hl⟩ := List.forall_mem_cons.mp hmiss
      rw [List.foldl_cons, rewriteNamespace_up_miss h hns, ih hl]

/-- Two levels up to one of the namespaces, the replacements from it on see the
one level that is left. -/
theorem foldl_ups {l : List UInt8} (hns : ns ∈ l) (h : ¬ up <+: text) :
    l.foldl rewriteNamespace (up ++ (up ++ ns :: char '/' :: text)) =
      (l.dropWhile (· != ns)).foldl rewriteNamespace (up ++ text) := by
  induction l with
  | nil => exact absurd hns List.not_mem_nil
  | cons m l ih =>
      by_cases hm : ns = m
      · subst hm
        rw [List.dropWhile_cons_of_neg (by simp), List.foldl_cons, List.foldl_cons,
          rewriteNamespace_ups h]
      · rw [List.dropWhile_cons_of_pos (by simpa using Ne.symm hm), List.foldl_cons,
          rewriteNamespace_ups_miss hm]
        exact ih ((List.mem_cons.mp hns).resolve_left hm)

end Rewriting

/-- A path that a link may hold as it is. -/
structure TargetPath (path : Bytes) : Prop where
  plain : PlainPath path
  quotes : QuoteFree path
  percent : char '%' ∉ path
  query : char '?' ∉ path
  fragment : char '#' ∉ path

/-- An article in the root of its namespace or in one subdirectory of it. -/
structure OldArticle where
  ns : UInt8
  subdirectory : Option Bytes
  name : Bytes
  title : Bytes
  mimetype : Bytes
  subdirectory_noSlash : ∀ d ∈ subdirectory, char '/' ∉ d
  name_noSlash : char '/' ∉ name
  name_ne_nil : name ≠ []
  html : findString mimetype (str "text/html") 0 ≠ none

/-- A target and its namespace. -/
structure OldTarget where
  ns : UInt8
  path : Bytes
  ns_mem : ns ∈ namespaces
  targetPath : TargetPath path

namespace OldArticle

/-- The path without the namespace. -/
def newPath (article : OldArticle) : Bytes :=
  match article.subdirectory with
  | none => article.name
  | some d => d ++ char '/' :: article.name

def item (article : OldArticle) (data : Bytes) : Item where
  path := article.ns :: char '/' :: article.newPath
  title := article.title
  mimetype := article.mimetype
  data := data

/-- The link from an article to a target. -/
def link (article : OldArticle) (target : OldTarget) : Bytes :=
  match article.subdirectory with
  | none => up ++ target.ns :: char '/' :: target.path
  | some _ => up ++ (up ++ target.ns :: char '/' :: target.path)

end OldArticle

/-- A text with a scheme in front. -/
def HasScheme (s : Bytes) : Prop := ∃ scheme rest, IsScheme scheme ∧ s = scheme ++ char ':' :: rest

/-- A link on the page at a path denotes an entry of the archive. -/
def Denotes (link path target : Bytes) : Prop :=
  detectUriKind link = .other ∧ resolveLinkTarget link path = .ok target

/-- In the place of a link between two parts of a content there is another one. -/
def InPlaceOf (content before : Bytes) (q : UInt8) (after link : Bytes) : Prop :=
  content = patched before ++ q :: (link ++ patched (q :: after))

/-- In the root the target does not begin with a scheme.  In a subdirectory the
target does not begin with a namespace that is replaced with or after its own,
unless that is the name of the subdirectory and no scheme comes behind it. -/
def Kept (article : OldArticle) (target : OldTarget) : Prop :=
  match article.subdirectory with
  | none => ¬ HasScheme target.path
  | some d => ∀ ns ∈ namespaces.dropWhile (· != target.ns), ∀ rest,
      target.path = ns :: char '/' :: rest → d = [ns] ∧ ¬ HasScheme rest

/-! ## What a link denotes -/

theorem TargetPath.not_up {path : Bytes} (h : TargetPath path) : ¬ up <+: path := by
  rintro ⟨rest, rfl⟩
  have hsegments : segments (up ++ rest) = str ".." :: segments rest :=
    segments_append (str "..") rest
  exact (h.plain (str "..") (hsegments ▸ List.mem_cons_self ..)).2.2 rfl

/-- The part of a path behind its first segment. -/
theorem TargetPath.tail {ns : UInt8} {rest : Bytes} (h : TargetPath (ns :: char '/' :: rest)) :
    TargetPath rest where
  plain s hs := by
    have hsegments : segments ([ns] ++ char '/' :: rest) = segments [ns] ++ segments rest :=
      segments_append [ns] rest
    exact h.plain s (hsegments ▸ List.mem_append_right _ hs)
  quotes c hc := h.quotes c (List.mem_cons_of_mem _ (List.mem_cons_of_mem _ hc))
  percent hc := h.percent (List.mem_cons_of_mem _ (List.mem_cons_of_mem _ hc))
  query hc := h.query (List.mem_cons_of_mem _ (List.mem_cons_of_mem _ hc))
  fragment hc := h.fragment (List.mem_cons_of_mem _ (List.mem_cons_of_mem _ hc))

theorem TargetPath.not_slashes {path : Bytes} (h : TargetPath path) : ¬ str "//" <+: path := by
  rintro ⟨rest, rfl⟩
  have hsegments : segments (str "//" ++ rest) = [] :: segments (char '/' :: rest) :=
    segments_append [] (char '/' :: rest)
  exact (h.plain [] (hsegments ▸ List.mem_cons_self ..)).1 rfl

theorem TargetPath.linkName {path s : Bytes} (h : TargetPath path) (hs : s ∈ segments path) :
    LinkName s := by
  have hstem : stem path = path := if_neg h.plain.getLast?_ne
  have hpath : LinkPath path := ⟨hstem.symm ▸ h.plain, h.percent, h.query, h.fragment⟩
  exact hpath.linkName (hstem.symm ▸ hs)

/-- No scheme is known as the kind without a scheme. -/
theorem specialKind_ne_other (scheme : Bytes) : (specialKind scheme).getD .genericUri ≠ .other := by
  rw [specialKind]
  cases h : uriSchemes.find? fun p => asciitolower p.1 = asciitolower scheme with
  | none => exact UriKind.noConfusion
  | some p =>
      have hall : ∀ p ∈ uriSchemes, p.2 ≠ .other := by decide
      exact hall p (List.mem_of_find?_eq_some h)

theorem detectUriKind_eq_other {s : Bytes} (hslashes : ¬ str "//" <+: s) :
    detectUriKind s = .other ↔ ¬ HasScheme s := by
  constructor
  · rintro h ⟨scheme, rest, hscheme, rfl⟩
    rw [detectUriKind_colon rest hscheme.clean, isValidUriScheme_iff.mpr hscheme,
      if_neg Bool.false_ne_true.symm] at h
    split_ifs at h
    exact specialKind_ne_other scheme h
  · intro h
    exact (HasKind.other hslashes fun scheme rest hscheme hs => h ⟨scheme, rest, hscheme, hs⟩).eq

/-- A path as a link goes down from the directory of the page. -/
theorem TargetPath.referenceResolve {path : Bytes} (h : TargetPath path) (dir : List Bytes) :
    referenceResolve dir (segments path) = some (withSlash dir ++ path) := by
  obtain hnil | ⟨names, s, hsegments⟩ := List.eq_nil_or_concat' (segments path)
  · exact absurd hnil (segments_ne_nil path)
  · have hjoin : (str "/").intercalate (segments path) = path := List.intercalate_splitOn (char '/')
    rw [hsegments, intercalate_concat] at hjoin
    have hnames : ∀ t ∈ names ++ [s], t ≠ str "." ∧ t ≠ str ".." :=
      fun t ht => (h.plain t (hsegments ▸ ht)).2
    rw [hsegments, referenceResolve_names dir
        (fun t ht => hnames t (List.mem_append_left _ ht)) (List.cons_ne_nil s []),
      referenceResolve_name _ (hnames s (List.mem_append_right _ (List.mem_singleton_self s))),
      ← hjoin, withSlash, List.flatMap_append, List.append_assoc]
    rfl

theorem TargetPath.denotes_iff {path z target : Bytes} (h : TargetPath path)
    (hz : PlainDir (dirSegments z)) :
    Denotes path z target ↔ ¬ HasScheme path ∧ withSlash (dirSegments z) ++ path = target := by
  have hresolve := resolveLinkTarget_names (segments_ne_nil path) (fun s hs => h.linkName hs)
    (Or.inl rfl) (List.append_nil _).symm hz
  rw [List.append_nil, h.referenceResolve] at hresolve
  rw [Denotes, detectUriKind_eq_other h.not_slashes, hresolve]
  exact and_congr_right fun _ => ⟨Except.ok.inj, congrArg Except.ok⟩

theorem TargetPath.denotes_up {path z d : Bytes} (h : TargetPath path)
    (hz : dirSegments z = [d]) : Denotes (up ++ path) z path := by
  have hplain : PlainDir (dirSegments z) := dirSegments_plain (by simp [hz])
  have hsegments : segments (up ++ path) = str ".." :: segments path :=
    segments_append (str "..") path
  have hkind : detectUriKind (up ++ path) = .other := by
    refine (detectUriKind_other (a := str "..") path (forall_mem_of_all (by decide)) (by decide)
      (by decide)).trans (if_neg ?_)
    rintro ⟨t, ht⟩
    exact absurd (List.cons.inj ht).1 (by decide)
  have hresolve := resolveLinkTarget_names (List.cons_ne_nil (str "..") (segments path))
    (List.forall_mem_cons.mpr ⟨linkName_dotdot, fun s hs => h.linkName hs⟩) (Or.inl rfl)
    (hsegments.trans (List.append_nil _).symm) hplain
  rw [List.append_nil, hz, referenceResolve_cons_of_ne _ _ (segments_ne_nil path),
    if_neg dot_ne_dotdot, if_pos rfl, step_up (List.cons_ne_nil d []), Option.bind_some,
    h.referenceResolve] at hresolve
  exact ⟨hkind, hresolve⟩

/-! ## The new links -/

theorem OldArticle.getPath_item (article : OldArticle) (data : Bytes) :
    getPath (article.item data) = article.newPath := by
  have hpos : 0 < article.newPath.length := by
    have hname := List.length_pos_of_ne_nil article.name_ne_nil
    rw [OldArticle.newPath]
    split
    · exact hname
    · rw [List.length_append, List.length_cons]
      omega
  have hlen : (article.item data).path.length > 2 := Nat.add_lt_add_right hpos 2
  rw [getPath, if_pos ⟨hlen, rfl⟩]
  rfl

theorem OldArticle.getContentProvider_item (article : OldArticle) (data : Bytes) :
    getContentProvider (article.item data) = .stringProvider (patched data) := by
  have hpatch : ¬ (findString (getMimeType (article.item data)) (str "text/html") 0 = none ∧
      findString (getMimeType (article.item data)) (str "text/css") 0 = none) :=
    fun h => article.html h.1
  rw [getContentProvider]
  exact if_neg hpatch

theorem OldArticle.quoteFree_link (article : OldArticle) (target : OldTarget) :
    QuoteFree (article.link target) := by
  have hup : QuoteFree up := forall_mem_of_all (by decide)
  have hns : ¬ IsQuote target.ns := by
    have hall : QuoteFree namespaces := forall_mem_of_all (by decide)
    exact hall target.ns target.ns_mem
  have hdown : QuoteFree (target.ns :: char '/' :: target.path) :=
    List.forall_mem_cons.mpr
      ⟨hns, List.forall_mem_cons.mpr ⟨by decide, target.targetPath.quotes⟩⟩
  rw [OldArticle.link]
  split
  · exact hup.append hdown
  · exact hup.append (hup.append hdown)

/-- In the place of an old link is the text that it is rewritten to. -/
theorem inPlaceOf_iff (article : OldArticle) (target : OldTarget) {q : UInt8} (hq : IsQuote q)
    (before after link : Bytes) :
    InPlaceOf (patched (before ++ q :: (article.link target ++ q :: after))) before q after link ↔
      link = rewritten (article.link target) := by
  rw [InPlaceOf, patched_quote hq (article.quoteFree_link target), List.append_cancel_left_eq,
    List.cons.injEq, List.append_cancel_right_eq]
  exact ⟨fun h => h.2.symm, fun h => ⟨rfl, h.symm⟩⟩

/-- Out of the root the target alone is left. -/
theorem denotes_root_iff (target : OldTarget) {name : Bytes} (hname : char '/' ∉ name) :
    Denotes (rewritten (up ++ target.ns :: char '/' :: target.path)) name target.path ↔
      ¬ HasScheme target.path := by
  have hdir : dirSegments name = [] :=
    congrArg List.dropLast (List.splitOn_eq_singleton hname)
  have hlink : rewritten (up ++ target.ns :: char '/' :: target.path) = target.path :=
    foldl_up_hit target.ns_mem target.targetPath.not_up
  rw [hlink, target.targetPath.denotes_iff (dirSegments_plain (by simp [hdir])), hdir]
  exact and_iff_left rfl

/-- Out of a subdirectory the replacements that follow may go on. -/
theorem denotes_subdirectory_iff (target : OldTarget) {d name : Bytes} (hd : char '/' ∉ d)
    (hname : char '/' ∉ name) :
    Denotes (rewritten (up ++ (up ++ target.ns :: char '/' :: target.path)))
        (d ++ char '/' :: name) target.path ↔
      ∀ ns ∈ namespaces.dropWhile (· != target.ns), ∀ rest,
        target.path = ns :: char '/' :: rest → d = [ns] ∧ ¬ HasScheme rest := by
  have hdir : dirSegments (d ++ char '/' :: name) = [d] := by
    rw [dirSegments, List.splitOn_append_cons_self, List.splitOn_eq_singleton hd,
      List.splitOn_eq_singleton hname]
    rfl
  rw [rewritten, foldl_ups target.ns_mem target.targetPath.not_up]
  by_cases hhit : ∃ ns ∈ namespaces.dropWhile (· != target.ns), ns :: str "/" <+: target.path
  · obtain ⟨ns, hns, rest, hrest⟩ := hhit
    have htarget : target.path = ns :: char '/' :: rest := hrest.symm
    have hpath : TargetPath rest := (htarget ▸ target.targetPath).tail
    rw [htarget, foldl_up_hit hns hpath.not_up,
      hpath.denotes_iff (dirSegments_plain (by simp [hdir])), hdir]
    have hdown : withSlash [d] ++ rest = ns :: char '/' :: rest ↔ d = [ns] := by
      have hjoin : withSlash [d] ++ rest = d ++ char '/' :: rest := by simp [withSlash, str]
      rw [hjoin]
      constructor
      · intro h
        have hsplit : d ++ char '/' :: rest = [ns] ++ char '/' :: rest := h
        exact List.append_cancel_right hsplit
      · rintro rfl
        rfl
    rw [hdown]
    constructor
    · rintro ⟨hscheme, hd⟩ ns' - rest' hrest'
      obtain ⟨rfl, hbehind⟩ := List.cons.inj hrest'
      obtain rfl := (List.cons.inj hbehind).2
      exact ⟨hd, hscheme⟩
    · intro h
      exact (h ns hns rest rfl).symm
  · have hmiss : ∀ ns ∈ namespaces.dropWhile (· != target.ns), ¬ ns :: str "/" <+: target.path :=
      fun ns hns hprefix => hhit ⟨ns, hns, hprefix⟩
    rw [foldl_up_miss target.targetPath.not_up hmiss]
    refine iff_of_true (target.targetPath.denotes_up hdir) fun ns hns rest hrest => ?_
    exact absurd ⟨rest, hrest.symm⟩ (hmiss ns hns)

/-- The new link denotes the target in the cases that are left. -/
theorem patched_link_iff (article : OldArticle) (target : OldTarget) {q : UInt8} (hq : IsQuote q)
    (before after : Bytes) :
    let item := article.item (before ++ q :: (article.link target ++ q :: after))
    (∃ link, InPlaceOf (getContentProvider item).content before q after link ∧
      Denotes link (getPath item) target.path) ↔ Kept article target := by
  intro item
  simp only [item, article.getContentProvider_item, ContentProvider.content, article.getPath_item,
    inPlaceOf_iff article target hq, exists_eq_left]
  obtain ⟨ns, subdirectory, name, title, mimetype, hsub, hname, -, -⟩ := article
  cases subdirectory with
  | none => exact denotes_root_iff target hname
  | some d => exact denotes_subdirectory_iff target (hsub d rfl) hname

/-- An image on a page in a subdirectory. -/
theorem patched_link_image :
    let article : OldArticle := ⟨char 'A', some (str "d"), str "x", str "X", str "text/html",
      by decide, by decide, by decide, by decide⟩
    let target : OldTarget := ⟨char 'I', str "a.png", by decide,
      ⟨by decide, forall_mem_of_all (by decide), by decide, by decide, by decide⟩⟩
    let item := article.item (str "<img src='" ++ (article.link target ++ char '\'' :: str ">"))
    ∃ link,
      InPlaceOf (getContentProvider item).content (str "<img src=") (char '\'') (str ">") link ∧
        Denotes link (getPath item) (str "a.png") := by
  intro article target item
  refine (patched_link_iff article target (Or.inl rfl) (str "<img src=") (str ">")).mpr ?_
  intro ns hns rest hrest
  have hsecond : (str "a.png")[1]? = some (char '/') := congrArg (·[1]?) hrest
  exact absurd hsecond (by decide)

/-- A link to an article whose path begins like a namespace loses that as well. -/
theorem patched_link_misses :
    let item : Item := ⟨str "A/d/x", str "X", str "text/html", str "<a href='../../A/I/O'>"⟩
    (getContentProvider item).content = str "<a href='O'>" ∧
      ¬ ∃ link,
        InPlaceOf (getContentProvider item).content (str "<a href=") (char '\'') (str ">") link ∧
          Denotes link (getPath item) (str "I/O") := by
  intro item
  have hcontent : (getContentProvider item).content = str "<a href='O'>" := by decide
  refine ⟨hcontent, ?_⟩
  rintro ⟨link, hplace, -, hresolve⟩
  have hbefore : patched (str "<a href=") = str "<a href=" := by decide
  have hafter : patched (char '\'' :: str ">") = str "'>" := by decide
  rw [hcontent, InPlaceOf, hbefore, hafter] at hplace
  have hsplit : str "<a href='" ++ (str "O" ++ str "'>") = str "<a href='" ++ (link ++ str "'>") :=
    hplace
  obtain rfl := List.append_cancel_right (List.append_cancel_left hsplit)
  exact absurd hresolve (by decide)

end ZimTools.Zimrecreate
