import ZimTools.Tools.ReplaceString

/-!
# The items of a recreated archive

A `PatchItem` is an item of an archive with the old namespace scheme, without
the namespace in its path and, in HTML and CSS, in the links.  The links are
text behind a quote, and sixteen replacements of the whole content rewrite them.
-/

namespace ZimTools.Zimrecreate

open Bytes

/-- An item of an existing archive. -/
structure Item where
  path : Bytes
  title : Bytes
  mimetype : Bytes
  data : Bytes

/-- Where the content of a new item comes from. -/
inductive ContentProvider where
  | itemProvider (item : Item)
  | stringProvider (content : Bytes)

def ContentProvider.content : ContentProvider → Bytes
  | .itemProvider item => item.data
  | .stringProvider content => content

namespace PatchItem

def getPath (item : Item) : Bytes :=
  if item.path.length > 2 ∧ item.path[1]? = some (char '/') then item.path.drop 2 else item.path

def getTitle (item : Item) : Bytes := item.title

def getMimeType (item : Item) : Bytes := item.mimetype

/-- The quotes that a link is behind. -/
def quotes : List UInt8 := [char '\'', char '"']

/-- The namespaces of the old scheme that links go to. -/
def namespaces : List UInt8 := [char 'A', char 'I', char 'J', char '-']

/-- The two replacements for a quote and a namespace. -/
def patchNamespace (q : UInt8) (content : Bytes) (ns : UInt8) : Bytes :=
  let content := replaceStringInPlace content ([q] ++ str "../../" ++ [ns] ++ str "/")
    ([q] ++ str "../")
  replaceStringInPlace content ([q] ++ str "../" ++ [ns] ++ str "/") [q]

/-- The replacements for a quote. -/
def patchQuote (content : Bytes) (q : UInt8) : Bytes := namespaces.foldl (patchNamespace q) content

def patched (content : Bytes) : Bytes := quotes.foldl patchQuote content

def getContentProvider (item : Item) : ContentProvider :=
  let mimetype := getMimeType item
  if findString mimetype (str "text/html") 0 = none ∧
      findString mimetype (str "text/css") 0 = none then
    .itemProvider item
  else .stringProvider (patched item.data)

end PatchItem

end ZimTools.Zimrecreate
