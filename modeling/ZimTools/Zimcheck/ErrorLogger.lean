import Mathlib.Data.List.AList
import Mathlib.Data.List.Sort
import Mathlib.Order.Defs.LinearOrder
import ZimTools.Zimcheck.JsonTools

/-!
# The error logger of zimcheck

`ErrorLogger` reports what zimcheck finds, as text or as one JSON object.  Its
constructor opens the object and its destructor closes it.  In between it takes
properties and, between `startLogStream` and `endLogStream`, messages, which are
the elements of the property `logs`.  Messages are rendered by a library,
`render` here.
-/

namespace ZimTools

open JSON

/-! ## Messages -/

inductive LogTag where
  | error
  | warning
deriving DecidableEq, Repr

inductive TestType where
  | checksum
  | integrity
  | empty
  | metadata
  | favicon
  | mainPage
  | redundant
  | urlInternal
  | urlExternal
  | urlEmpty
  | redirect
deriving DecidableEq, Repr

/-- The tests below `TestType::COUNT`, in order. -/
def TestType.all : List TestType :=
  [.checksum, .integrity, .empty, .metadata, .favicon, .mainPage, .redundant, .urlInternal,
    .urlExternal, .urlEmpty, .redirect]

inductive MsgId where
  | checksum
  | mainPage
  | metadata
  | emptyEntry
  | outOfBoundsLink
  | absPathLink
  | emptyLinks
  | danglingLinks
  | externalLink
  | redundantItems
  | redirectLoop
  | missingFavicon
deriving DecidableEq, Repr

def tagToStr : LogTag → String
  | .error => "ERROR"
  | .warning => "WARNING"

def errormapping : TestType → LogTag × String
  | .checksum => (.error, "Checksum")
  | .integrity => (.error, "Integrity")
  | .empty => (.error, "Empty Article")
  | .metadata => (.error, "Metadata")
  | .favicon => (.error, "Favicon")
  | .mainPage => (.error, "Main Page")
  | .redundant => (.warning, "Redundant Data")
  | .urlInternal => (.error, "Internal URL")
  | .urlExternal => (.error, "External URL")
  | .urlEmpty => (.warning, "Empty link")
  | .redirect => (.error, "Redirect Loop")

structure MsgInfo where
  check : TestType
  msgTemplate : String

def msgTable : MsgId → MsgInfo
  | .checksum =>
      ⟨.checksum, "ZIM Archive Checksum in archive: \x7b\x7b&archive_checksum\x7d\x7d\n"⟩
  | .mainPage =>
      ⟨.mainPage, "Main Page Index stored in Archive Header: \x7b\x7b&main_page_index\x7d\x7d"⟩
  | .emptyEntry => ⟨.empty, "Entry \x7b\x7b&path\x7d\x7d is empty"⟩
  | .outOfBoundsLink =>
      ⟨.urlInternal, "\x7b\x7b&link\x7d\x7d is out of bounds. Article: \x7b\x7b&path\x7d\x7d"⟩
  | .absPathLink =>
      ⟨.urlInternal,
        "\x7b\x7b&link\x7d\x7d is an absolute path link. Article: \x7b\x7b&path\x7d\x7d"⟩
  | .danglingLinks =>
      ⟨.urlInternal, "Dangling link(s) in article '\x7b\x7b&path\x7d\x7d':\n" ++
        "\x7b\x7b#links\x7d\x7d  - '\x7b\x7b&value\x7d\x7d' " ++
        "(resolves to '\x7b\x7b&normalized_link\x7d\x7d')\n\x7b\x7b/links\x7d\x7d"⟩
  | .externalLink =>
      ⟨.urlExternal,
        "\x7b\x7b&link\x7d\x7d is an external dependence in article \x7b\x7b&path\x7d\x7d"⟩
  | .emptyLinks =>
      ⟨.urlEmpty,
        "Found \x7b\x7b&count\x7d\x7d empty links in article: \x7b\x7b&path\x7d\x7d"⟩
  | .redundantItems =>
      ⟨.redundant, "\x7b\x7b&path1\x7d\x7d and \x7b\x7b&path2\x7d\x7d"⟩
  | .metadata => ⟨.metadata, "\x7b\x7b&error\x7d\x7d"⟩
  | .redirectLoop =>
      ⟨.redirect, "Redirect loop exists from entry \x7b\x7b&entry_path\x7d\x7d\n"⟩
  | .missingFavicon => ⟨.favicon, "Favicon is missing"⟩

/-- `toStr(TestType)`. -/
def TestType.toStr : TestType → String
  | .checksum => "checksum"
  | .integrity => "integrity"
  | .empty => "empty"
  | .metadata => "metadata"
  | .favicon => "favicon"
  | .mainPage => "main_page"
  | .redundant => "redundant"
  | .urlInternal => "url_internal"
  | .urlExternal => "url_external"
  | .urlEmpty => "url_empty"
  | .redirect => "redirect"

/-- A `mustache::data`.  Its truth values, partials and lambdas are one case:
the code treats them alike. -/
inductive Data where
  | string (s : Bytes)
  | list (elements : List Data)
  | object (fields : List (Bytes × Data))
  | other

/-- A `mustache::object`, which is an unordered map. -/
abbrev MsgParams := AList fun _ : Bytes => Data

abbrev EnabledTests := TestType → Bool

/-- A value `addInfo` is called with. -/
inductive Info where
  | string (s : Bytes)
  | bool (b : Bool)
  | tests (checks : EnabledTests)

/-- The copy of the parameters in a `std::map`. -/
def sortedMsgParams (msgParams : MsgParams) : List (Bytes × Data) :=
  (msgParams.entries.map fun e => (e.1, e.2)).insertionSort (fun a b => a.1 ≤ b.1)

/-! ## Output of values -/

mutual

/-- `operator<<(OutputStream&, const mustache::data&)`. -/
def putData : Data → OutputStream → Option OutputStream
  | .string s, out => out.put (OutputStream.outputString s)
  | .list l, out => do
      let out ← out.put OutputStream.outputStartArray
      let out ← putElements l out
      out.putEndArray
  | .object fields, out => putValue fields out
  | .other, out => out.put (OutputStream.outputCStr (str "!!! UNSUPPORTED DATA TYPE !!!"))

def putElements : List Data → OutputStream → Option OutputStream
  | [], out => some out
  | el :: els, out => do
      let out ← putData el out
      putElements els out

/-- `d.get("value")`, written when there is one. -/
def putValue : List (Bytes × Data) → OutputStream → Option OutputStream
  | [], out => some out
  | (name, v) :: fields, out =>
      if name = str "value" then putData v out else putValue fields out

end

/-- `operator<<(OutputStream&, TestType)`. -/
def putTestType (check : TestType) (out : OutputStream) : Option OutputStream :=
  out.put (OutputStream.outputCStr (str check.toStr))

/-- `operator<<(OutputStream&, EnabledTests)`. -/
def putEnabledTests (checks : EnabledTests) (out : OutputStream) : Option OutputStream := do
  let out ← out.put OutputStream.outputStartArray
  let out ← TestType.all.foldlM
    (fun out check => if checks check then putTestType check out else some out) out
  out.putEndArray

def Info.put : Info → OutputStream → Option OutputStream
  | .string s => OutputStream.put (OutputStream.outputString s)
  | .bool b => OutputStream.put (OutputStream.outputBool b)
  | .tests checks => putEnabledTests checks

/-! ## The logger -/

structure ErrorLogger where
  logStreamOpen : Bool
  testStatus : TestType → Bool
  jsonOutputStream : OutputStream

namespace ErrorLogger

variable (render : Bytes → MsgParams → Bytes)

/-- The constructor. -/
def create (jsonOutputMode : Bool) : Option ErrorLogger := do
  let out : OutputStream := ⟨jsonOutputMode, [], []⟩
  let out ← if out.enabled then out.put OutputStream.outputStartObject else some out
  some ⟨false, fun _ => true, out⟩

/-- Text mode writes to the same `std::cout`. -/
def print (l : ErrorLogger) (text : Bytes) : ErrorLogger :=
  { l with jsonOutputStream := l.jsonOutputStream.write text }

def startLogStream (l : ErrorLogger) : Option ErrorLogger :=
  if l.jsonOutputStream.enabled && !l.logStreamOpen then do
    let out ← l.jsonOutputStream.put (OutputStream.outputProperty (str "logs")
      (OutputStream.put OutputStream.outputStartArray))
    some { l with jsonOutputStream := out, logStreamOpen := true }
  else some l

def endLogStream (l : ErrorLogger) : Option ErrorLogger :=
  if l.jsonOutputStream.enabled && l.logStreamOpen then do
    let out ← l.jsonOutputStream.putEndArray
    some { l with jsonOutputStream := out, logStreamOpen := false }
  else some l

/-- The destructor, with what `std::cout` has got in the end. -/
def destroy (l : ErrorLogger) : Option Bytes := do
  let l ← if l.logStreamOpen then l.endLogStream else some l
  let out ← if l.jsonOutputStream.enabled then
    l.jsonOutputStream.put OutputStream.outputEndObject else some l.jsonOutputStream
  some out.out

def addInfo (key : Bytes) (value : Info) (l : ErrorLogger) : Option ErrorLogger :=
  if l.jsonOutputStream.enabled then do
    let out ← l.jsonOutputStream.put (OutputStream.outputProperty key value.put)
    some { l with jsonOutputStream := out }
  else some l

def setTestResult (type : TestType) (status : Bool) (l : ErrorLogger) : ErrorLogger :=
  { l with testStatus := Function.update l.testStatus type status }

def expand (msgId : MsgId) (msgParams : MsgParams) : Bytes :=
  render (str (msgTable msgId).msgTemplate) msgParams

/-- The properties of a message, in the order they are written. -/
def putMsgParams : List (Bytes × Data) → OutputStream → Option OutputStream
  | [], out => some out
  | kv :: kvs, out => do
      let out ← out.put (OutputStream.outputProperty kv.1 (putData kv.2))
      putMsgParams kvs out

def jsonOutput (msgId : MsgId) (msgParams : MsgParams) (out : OutputStream) :
    Option OutputStream := do
  let m := msgTable msgId
  let out ← out.put OutputStream.outputStartObject
  let out ← out.put (OutputStream.outputProperty (str "check") (putTestType m.check))
  let out ← out.put (OutputStream.outputProperty (str "level")
    (OutputStream.put (OutputStream.outputString (str (tagToStr (errormapping m.check).1)))))
  let out ← out.put (OutputStream.outputProperty (str "message")
    (OutputStream.put (OutputStream.outputString (expand render msgId msgParams))))
  let out ← putMsgParams (sortedMsgParams msgParams) out
  out.put OutputStream.outputEndObject

def addMsg (msgId : MsgId) (msgParams : MsgParams) (l : ErrorLogger) : Option ErrorLogger :=
  let m := msgTable msgId
  let l := l.setTestResult m.check false
  if l.jsonOutputStream.enabled then do
    let out ← jsonOutput render msgId msgParams l.jsonOutputStream
    some { l with jsonOutputStream := out }
  else
    let p := errormapping m.check
    some (l.print (str "[" ++ str (tagToStr p.1) ++ str "] " ++ str p.2 ++ str ": " ++
      expand render msgId msgParams ++ str "\n"))

/-- The check of the final status: no test that counts as an error has failed. -/
def overallStatus (l : ErrorLogger) : Bool :=
  TestType.all.all fun t => (errormapping t).1 != .error || l.testStatus t

end ErrorLogger

end ZimTools
