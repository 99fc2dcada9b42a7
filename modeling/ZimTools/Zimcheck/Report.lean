import ZimTools.Zimcheck.JsonScopes
import ZimTools.Zimcheck.ErrorLogger

/-!
# The report of zimcheck

A logger in JSON mode is always in one of three states, before or after the log,
inside it, and behind the destructor (`Collecting`, `Logging`), and each call
leads from one to the next.  What it writes in the end is one JSON object
(`session_is_json`).

Of the library that renders messages only this is relied on: from a template and
parameters of printable characters and newlines it makes a text of such
characters (`RendersClean`).
-/

namespace ZimTools

open Json (Value JsonText)
open Utf8 (encode)
open JSON

/-! ## What is reported -/

/-- The characters of a UTF-8 string. -/
def text (s : Bytes) : List Char := (Utf8.decode s).getD []

@[simp] theorem text_encode (cs : List Char) : text (encode cs) = cs := by
  rw [text, Utf8.decode_encode]
  rfl

/-- A string of printable characters and newlines. -/
def CleanText (s : Bytes) : Prop := Clean (text s) ∧ s = encode (text s)

theorem CleanText.of_ascii {s : String} (h : Ascii s.toList)
    (hclean : Clean s.toList) : CleanText (str s) := by
  rw [CleanText, str_eq_encode h, text_encode]
  exact ⟨hclean, rfl⟩

/-- The field `value` of an object. -/
def getValue : List (Bytes × Data) → Option Data
  | [] => none
  | (name, v) :: fields => if name = str "value" then some v else getValue fields

/-- Strings, and lists of objects with a field `value`. -/
inductive Data.Param : Data → Prop where
  | string {s : Bytes} (h : CleanText s) : Param (.string s)
  | list {l : List Data} (h : ∀ d ∈ l, Param d) : Param (.list l)
  | object {fields : List (Bytes × Data)} {d : Data} (hvalue : getValue fields = some d)
      (hnames : ∀ f ∈ fields, CleanText f.1) (h : ∀ f ∈ fields, Param f.2) :
      Param (.object fields)

mutual

/-- The JSON value of a parameter. -/
def Data.json : Data → Value
  | .string s => .string (text s)
  | .list l => .array (elementsJson l)
  | .object fields => valueJson fields
  | .other => .string (text (str "!!! UNSUPPORTED DATA TYPE !!!"))

def elementsJson : List Data → List Value
  | [] => []
  | el :: els => el.json :: elementsJson els

def valueJson : List (Bytes × Data) → Value
  | [] => .null
  | (name, v) :: fields => if name = str "value" then v.json else valueJson fields

end

def Info.json : Info → Value
  | .string s => .string (text s)
  | .bool b => .bool b
  | .tests checks => .array ((TestType.all.filter checks).map fun t => .string t.toStr.toList)

theorem putValue_of_getValue {fields : List (Bytes × Data)} {d : Data}
    (h : getValue fields = some d) : putValue fields = putData d ∧ valueJson fields = d.json := by
  induction fields with
  | nil => exact nomatch h
  | cons f fields ih =>
      obtain ⟨name, v⟩ := f
      rw [getValue] at h
      constructor
      · funext out
        rw [putValue]
        split at h
        · rename_i hname
          rw [if_pos hname, Option.some.inj h]
        · rename_i hname
          rw [if_neg hname, (ih h).1]
      · rw [valueJson]
        split at h
        · rename_i hname
          rw [if_pos hname, Option.some.inj h]
        · rename_i hname
          rw [if_neg hname, (ih h).2]

theorem mem_of_getValue {fields : List (Bytes × Data)} {d : Data}
    (h : getValue fields = some d) : ∃ f ∈ fields, f.2 = d := by
  induction fields with
  | nil => exact nomatch h
  | cons f fields ih =>
      obtain ⟨name, v⟩ := f
      rw [getValue] at h
      split at h
      · exact ⟨_, List.mem_cons_self .., Option.some.inj h⟩
      · obtain ⟨f, hf, hd⟩ := ih h
        exact ⟨f, List.mem_cons_of_mem _ hf, hd⟩

theorem writes_text (type : ScopeType) {s : Bytes} (h : CleanText s) :
    Writes type (OutputStream.put (OutputStream.outputString s)) (.string (text s)) := by
  have hw := writes_string type h.1
  rwa [← h.2] at hw

theorem inArray_putElements {l : List Data}
    (h : ∀ d ∈ l, Writes .array (putData d) d.json) : InArray (putElements l) (elementsJson l) := by
  induction l with
  | nil => exact inArray_nil
  | cons d l ih =>
      obtain ⟨hd, hl⟩ := List.forall_mem_cons.mp h
      exact hd.inArray.append (ih hl)

/-- A parameter is written as its JSON value. -/
theorem writes_putData {d : Data} (h : d.Param) (type : ScopeType) :
    Writes type (putData d) d.json := by
  induction h generalizing type with
  | string h => exact writes_text type h
  | list h ih => exact (inArray_putElements fun d hd => ih d hd .array).writes type
  | object hvalue _ h ih =>
      obtain ⟨hput, hjson⟩ := putValue_of_getValue hvalue
      obtain ⟨f, hf, rfl⟩ := mem_of_getValue hvalue
      intro out hasData rest hdata
      rw [putData, hput, Data.json, hjson]
      exact ih f hf type out hasData rest hdata

/-- The names of the tests are clean. -/
theorem writes_putTestType (check : TestType) (type : ScopeType) :
    Writes type (putTestType check) (.string check.toStr.toList) := by
  have hascii : Ascii check.toStr.toList := by cases check <;> decide
  have hclean : Clean check.toStr.toList := by cases check <;> decide
  have hput : putTestType check =
      OutputStream.put (OutputStream.outputString (encode check.toStr.toList)) := by
    funext out
    rw [putTestType, str_eq_encode hascii, hclean.outputCStr]
  rw [hput]
  exact writes_string type hclean

theorem writes_putEnabledTests (checks : EnabledTests) (type : ScopeType) :
    Writes type (putEnabledTests checks) (Info.tests checks).json := by
  have hall (l : List TestType) : InArray (fun out => l.foldlM
      (fun out check => if checks check then putTestType check out else some out) out)
      ((l.filter checks).map fun t => .string t.toStr.toList) := by
    induction l with
    | nil => exact inArray_nil
    | cons t l ih =>
        by_cases ht : checks t = true
        · simpa only [List.foldlM_cons, ht, if_true, List.filter_cons, List.map_cons,
            List.cons_append, List.nil_append] using (writes_putTestType t .array).inArray.append ih
        · simpa only [List.foldlM_cons, ht, if_false, List.filter_cons, Option.bind_eq_bind,
            Option.bind_some, Bool.false_eq_true] using ih
  exact (hall TestType.all).writes type

/-- What a run of a logger is made of.  Without `closing` the destructor finds
the log still open. -/
structure Log where
  msgs : List (MsgId × MsgParams)
  closing : Option (List (Bytes × Info))

structure Session where
  infos : List (Bytes × Info)
  log : Option Log

inductive Call where
  | addInfo (key : Bytes) (value : Info)
  | startLogStream
  | endLogStream
  | addMsg (msgId : MsgId) (msgParams : MsgParams)

def Log.calls (log : Log) : List Call :=
  .startLogStream :: log.msgs.map (fun m => .addMsg m.1 m.2) ++
    match log.closing with
    | none => []
    | some infos => .endLogStream :: infos.map fun i => .addInfo i.1 i.2

def Session.calls (session : Session) : List Call :=
  session.infos.map (fun i => .addInfo i.1 i.2) ++
    match session.log with
    | none => []
    | some log => log.calls

def Call.perform (render : Bytes → MsgParams → Bytes) : Call → ErrorLogger → Option ErrorLogger
  | .addInfo key value => ErrorLogger.addInfo key value
  | .startLogStream => ErrorLogger.startLogStream
  | .endLogStream => ErrorLogger.endLogStream
  | .addMsg msgId msgParams => ErrorLogger.addMsg render msgId msgParams

/-- What a logger in JSON mode writes from its constructor to its destructor. -/
def Session.run (render : Bytes → MsgParams → Bytes) (session : Session) : Option Bytes := do
  let l ← ErrorLogger.create true
  let l ← session.calls.foldlM (fun l call => call.perform render l) l
  l.destroy

def Info.IsClean : Info → Prop
  | .string s => CleanText s
  | _ => True

/-- The parameters of a message: no fixed name, and values with a JSON form. -/
structure CleanParams (msgParams : MsgParams) : Prop where
  names : ∀ e ∈ msgParams.entries, CleanText e.1
  values : ∀ e ∈ msgParams.entries, Data.Param e.2

/-- The names of a message are its own. -/
def reserved : List (List Char) := ["check".toList, "level".toList, "message".toList]

def CleanInfos (infos : List (Bytes × Info)) : Prop :=
  ∀ i ∈ infos, CleanText i.1 ∧ i.2.IsClean

structure Session.IsClean (session : Session) : Prop where
  infos : CleanInfos session.infos
  msgs : ∀ log, session.log = some log → ∀ m ∈ log.msgs,
    CleanParams m.2 ∧ ∀ e ∈ m.2.entries, text e.1 ∉ reserved
  closing : ∀ log, session.log = some log → ∀ infos, log.closing = some infos → CleanInfos infos

def infoMembers (infos : List (Bytes × Info)) : List (List Char × Value) :=
  infos.map fun i => (text i.1, i.2.json)

/-- The object of a message: its fixed members, then its parameters by name. -/
def messageJson (render : Bytes → MsgParams → Bytes) (msgId : MsgId)
    (sorted : List (Bytes × Data)) (msgParams : MsgParams) : List (List Char × Value) :=
  [("check".toList, .string (msgTable msgId).check.toStr.toList),
    ("level".toList, .string (tagToStr (errormapping (msgTable msgId).check).1).toList),
    ("message".toList, .string (text (ErrorLogger.expand render msgId msgParams)))] ++
  sorted.map fun kv => (text kv.1, kv.2.json)

/-- `v` is the object of a message, whose names differ. -/
def IsMessage (render : Bytes → MsgParams → Bytes) (m : MsgId × MsgParams) (v : Value) : Prop :=
  ∃ sorted : List (Bytes × Data), sorted.Perm (m.2.entries.map fun e => (e.1, e.2)) ∧
    sorted.Pairwise (fun a b => a.1 < b.1) ∧
    v = .object (messageJson render m.1 sorted m.2) ∧
    ((messageJson render m.1 sorted m.2).map Prod.fst).Nodup

/-- The members of the object a session is to write. -/
def Session.Reports (render : Bytes → MsgParams → Bytes) (session : Session)
    (members : List (List Char × Value)) : Prop :=
  match session.log with
  | none => members = infoMembers session.infos
  | some log => ∃ logs, List.Forall₂ (IsMessage render) log.msgs logs ∧
      members = infoMembers session.infos ++ ("logs".toList, .array logs) ::
        infoMembers (log.closing.getD [])

/-! ## Messages -/

theorem sortedMsgParams_perm (msgParams : MsgParams) :
    (sortedMsgParams msgParams).Perm (msgParams.entries.map fun e => (e.1, e.2)) :=
  List.perm_insertionSort _ _

/-- The names are in strictly increasing order. -/
theorem sortedMsgParams_sorted (msgParams : MsgParams) :
    (sortedMsgParams msgParams).Pairwise (fun a b => a.1 < b.1) := by
  have : Std.Total (fun a b : Bytes × Data => a.1 ≤ b.1) := ⟨fun a b => List.le_total a.1 b.1⟩
  have : IsTrans (Bytes × Data) (fun a b => a.1 ≤ b.1) := ⟨fun _ _ _ => List.le_trans⟩
  have hsorted := List.pairwise_insertionSort (fun a b : Bytes × Data => a.1 ≤ b.1)
    (msgParams.entries.map fun e => (e.1, e.2))
  have hkeys : ((sortedMsgParams msgParams).map Prod.fst).Nodup := by
    refine (((sortedMsgParams_perm msgParams).map Prod.fst).nodup_iff).mpr ?_
    rw [List.map_map]
    exact msgParams.keys_nodup
  exact (hsorted.and (List.pairwise_map.mp hkeys)).imp fun h => Std.lt_of_le_of_ne h.1 h.2

theorem mem_sortedMsgParams {msgParams : MsgParams} (h : CleanParams msgParams)
    {kv : Bytes × Data} (hkv : kv ∈ sortedMsgParams msgParams) :
    CleanText kv.1 ∧ kv.2.Param ∧ ∃ e ∈ msgParams.entries, e.1 = kv.1 := by
  obtain ⟨e, he, rfl⟩ := List.mem_map.mp ((sortedMsgParams_perm msgParams).mem_iff.mp hkv)
  exact ⟨h.names e he, h.values e he, e, he, rfl⟩

theorem inObject_text {key : Bytes} (hkey : CleanText key)
    {value : OutputStream → Option OutputStream} {v : Value} (hvalue : Writes .object value v) :
    InObject (OutputStream.put (OutputStream.outputProperty key value)) [(text key, v)] := by
  have hproperty := inObject_property hkey.1 hvalue
  rwa [← hkey.2] at hproperty

theorem inObject_putMsgParams (kvs : List (Bytes × Data))
    (h : ∀ kv ∈ kvs, CleanText kv.1 ∧ kv.2.Param) :
    InObject (ErrorLogger.putMsgParams kvs) (kvs.map fun kv => (text kv.1, kv.2.json)) := by
  induction kvs with
  | nil => exact inObject_nil
  | cons kv kvs ih =>
      obtain ⟨⟨hname, hvalue⟩, hkvs⟩ := List.forall_mem_cons.mp h
      exact (inObject_text hname (writes_putData hvalue .object)).append (ih hkvs)

theorem cleanText_check : CleanText (str "check") :=
  .of_ascii (by decide) (by decide)

theorem cleanText_level : CleanText (str "level") :=
  .of_ascii (by decide) (by decide)

theorem cleanText_message : CleanText (str "message") :=
  .of_ascii (by decide) (by decide)

theorem cleanText_tagToStr (tag : LogTag) : CleanText (str (tagToStr tag)) := by
  cases tag <;> exact .of_ascii (by decide) (by decide)

theorem text_str {s : String} (h : Ascii s.toList) : text (str s) = s.toList := by
  rw [str_eq_encode h, text_encode]

/-- A message is written as its object. -/
theorem writes_jsonOutput {render : Bytes → MsgParams → Bytes} {msgId : MsgId}
    {msgParams : MsgParams} (hparams : CleanParams msgParams)
    (hexpand : CleanText (ErrorLogger.expand render msgId msgParams)) (type : ScopeType) :
    Writes type (ErrorLogger.jsonOutput render msgId msgParams)
      (.object (messageJson render msgId (sortedMsgParams msgParams) msgParams)) := by
  have hcheck := inObject_text cleanText_check
    (writes_putTestType (msgTable msgId).check .object)
  have hlevel := inObject_text cleanText_level (writes_text .object
    (cleanText_tagToStr (errormapping (msgTable msgId).check).1))
  have hmessage := inObject_text cleanText_message (writes_text .object hexpand)
  have hrest := inObject_putMsgParams (sortedMsgParams msgParams) fun kv hkv =>
    ⟨(mem_sortedMsgParams hparams hkv).1, (mem_sortedMsgParams hparams hkv).2.1⟩
  have hall := (hcheck.append (hlevel.append (hmessage.append hrest))).writes type
  have htag : text (str (tagToStr (errormapping (msgTable msgId).check).1)) =
      (tagToStr (errormapping (msgTable msgId).check).1).toList := by
    refine text_str ?_
    cases (errormapping (msgTable msgId).check).1 <;> decide
  rw [htag, text_str (by decide), text_str (by decide), text_str (by decide)] at hall
  simp only [bind_assoc, List.cons_append, List.nil_append] at hall
  exact hall

/-- The object of a message is the one that was to be written. -/
theorem isMessage_messageJson {render : Bytes → MsgParams → Bytes} {m : MsgId × MsgParams}
    (hparams : CleanParams m.2) (hnames : ∀ e ∈ m.2.entries, text e.1 ∉ reserved) :
    IsMessage render m (.object (messageJson render m.1 (sortedMsgParams m.2) m.2)) := by
  refine ⟨sortedMsgParams m.2, sortedMsgParams_perm m.2, sortedMsgParams_sorted m.2, rfl, ?_⟩
  rw [messageJson, List.map_append, List.nodup_append]
  refine ⟨by simp, ?_, ?_⟩
  · rw [List.map_map]
    refine List.pairwise_map.mpr ((sortedMsgParams_sorted m.2).imp_of_mem ?_)
    intro a b ha hb hlt heq
    have htext : text a.1 = text b.1 := heq
    rw [(mem_sortedMsgParams hparams ha).1.2, (mem_sortedMsgParams hparams hb).1.2, htext] at hlt
    exact absurd hlt (List.lt_irrefl _)
  · intro name hname other hother
    rw [List.map_map] at hother
    obtain ⟨kv, hkv, rfl⟩ := List.mem_map.mp hother
    obtain ⟨e, he, hkey⟩ := (mem_sortedMsgParams hparams hkv).2.2
    rintro rfl
    exact hnames e he (hkey ▸ hname)

/-! ## The states of a logger -/

/-- Before and after the log: the object is open. -/
structure Collecting (l : ErrorLogger) (ms : List (List Char × Value)) : Prop where
  closed : l.logStreamOpen = false
  stream : ∃ t hasData, MembersSoFar hasData t ms ∧
    l.jsonOutputStream = ⟨true, encode ['{', '\n'] ++ encode t, [⟨.object, hasData⟩]⟩

/-- The text from the last member to the first message. -/
def logsLead (hasData : Bool) : List Char :=
  sepText hasData ++ indentText 1 ++ literalText "logs".toList ++ [' ', ':', ' '] ++ ['[', '\n']

/-- Inside the log: its array is open, too. -/
structure Logging (l : ErrorLogger) (ms : List (List Char × Value)) (vs : List Value) : Prop where
  opened : l.logStreamOpen = true
  stream : ∃ t hasData t' hasData', MembersSoFar hasData t ms ∧ ElementsSoFar hasData' t' vs ∧
    l.jsonOutputStream = ⟨true, encode ['{', '\n'] ++ encode t ++ encode (logsLead hasData) ++
      encode t', [⟨.array, hasData'⟩, ⟨.object, true⟩]⟩

theorem collecting_create : ∃ l, ErrorLogger.create true = some l ∧ Collecting l [] :=
  ⟨_, rfl, rfl, [], false, ⟨rfl, rfl⟩, rfl⟩

theorem Collecting.addInfo {l : ErrorLogger} {ms : List (List Char × Value)}
    (h : Collecting l ms) {key : Bytes} {value : Info} (hkey : CleanText key)
    (hvalue : value.IsClean) :
    ∃ l', l.addInfo key value = some l' ∧ Collecting l' (ms ++ [(text key, value.json)]) := by
  obtain ⟨hclosed, t, hasData, hms, hstream⟩ := h
  have hput : Writes .object value.put value.json := by
    cases value with
    | string s => exact writes_text .object hvalue
    | bool b => exact writes_bool b
    | tests checks => exact writes_putEnabledTests checks .object
  obtain ⟨t', hasData', hms', hout⟩ :=
    inObject_text hkey hput (encode ['{', '\n']) t hasData ms [] hms
  refine ⟨{ l with jsonOutputStream := ⟨true, encode ['{', '\n'] ++ encode t',
    [⟨.object, hasData'⟩]⟩ }, ?_, hclosed, t', hasData', hms', rfl⟩
  simp only [ErrorLogger.addInfo, hstream, if_true, hout, Option.bind_eq_bind, Option.bind_some]

theorem Collecting.addInfos (render : Bytes → MsgParams → Bytes) :
    ∀ {infos : List (Bytes × Info)} {l : ErrorLogger} {ms : List (List Char × Value)},
      Collecting l ms → CleanInfos infos →
      ∃ l', (infos.map fun i => Call.addInfo i.1 i.2).foldlM (fun l call => call.perform render l) l
          = some l' ∧ Collecting l' (ms ++ infoMembers infos)
  | [], l, ms, h, _ => ⟨l, rfl, by simpa [infoMembers] using h⟩
  | i :: infos, l, ms, h, hclean => by
      obtain ⟨⟨hkey, hvalue⟩, hinfos⟩ := List.forall_mem_cons.mp hclean
      obtain ⟨l', hl', h'⟩ := h.addInfo hkey hvalue
      obtain ⟨l'', hl'', h''⟩ := h'.addInfos render hinfos
      have hperform : Call.perform render (.addInfo i.1 i.2) l = some l' := hl'
      refine ⟨l'', ?_, by simpa [infoMembers] using h''⟩
      simp only [List.map_cons, List.foldlM_cons, hperform, Option.bind_eq_bind,
        Option.bind_some, hl'']

theorem Collecting.startLogStream {l : ErrorLogger} {ms : List (List Char × Value)}
    (h : Collecting l ms) : ∃ l', l.startLogStream = some l' ∧ Logging l' ms [] := by
  obtain ⟨hclosed, t, hasData, hms, hstream⟩ := h
  have hlogs : str "logs" = encode "logs".toList := str_eq_encode (by decide)
  have hclean : Clean "logs".toList := by decide
  have hput : OutputStream.put (OutputStream.outputProperty (str "logs")
      (OutputStream.put OutputStream.outputStartArray)) l.jsonOutputStream =
      some ⟨true, encode ['{', '\n'] ++ encode t ++ encode (logsLead hasData) ++ encode [],
        [⟨.array, false⟩, ⟨.object, true⟩]⟩ := by
    rw [hstream, hlogs, outputProperty_eq hclean, putStartArray_eq]
    simp [logsLead, leadText]
  refine ⟨{ l with jsonOutputStream := _, logStreamOpen := true }, ?_, rfl, t, hasData, [],
    false, hms, ⟨rfl, rfl⟩, rfl⟩
  have henabled : l.jsonOutputStream.enabled = true := by rw [hstream]
  simp only [ErrorLogger.startLogStream, henabled, hclosed, Bool.not_false, Bool.and_self,
    if_true, hput, Option.bind_eq_bind, Option.bind_some]

theorem Logging.addMsg {render : Bytes → MsgParams → Bytes} {l : ErrorLogger}
    {ms : List (List Char × Value)} {vs : List Value} (h : Logging l ms vs)
    {msgId : MsgId} {msgParams : MsgParams} (hparams : CleanParams msgParams)
    (hexpand : CleanText (ErrorLogger.expand render msgId msgParams)) :
    ∃ l', l.addMsg render msgId msgParams = some l' ∧ Logging l' ms (vs ++
      [.object (messageJson render msgId (sortedMsgParams msgParams) msgParams)]) := by
  obtain ⟨hopened, t, hasData, t', hasData', hms, hvs, hstream⟩ := h
  obtain ⟨t'', hasData'', hvs', hout⟩ := (writes_jsonOutput hparams hexpand .array).inArray
    (encode ['{', '\n'] ++ encode t ++ encode (logsLead hasData)) t' hasData' vs
    [⟨.object, true⟩] hvs
  refine ⟨{ l.setTestResult (msgTable msgId).check false with jsonOutputStream := _ }, ?_,
    hopened, t, hasData, t'', hasData'', hms, hvs', rfl⟩
  simp only [ErrorLogger.addMsg, ErrorLogger.setTestResult, hstream, if_true, hout,
    Option.bind_eq_bind, Option.bind_some]

theorem Logging.endLogStream {l : ErrorLogger} {ms : List (List Char × Value)}
    {vs : List Value} (h : Logging l ms vs) :
    ∃ l', l.endLogStream = some l' ∧ Collecting l' (ms ++ [("logs".toList, .array vs)]) := by
  obtain ⟨hopened, t, hasData, t', hasData', hms, hvs, hstream⟩ := h
  have hclean : Clean "logs".toList := by decide
  have hms' := hms.snoc 1 hclean.stringText (hvs.valueText 1)
  have henabled : l.jsonOutputStream.enabled = true := by rw [hstream]
  have hput : l.jsonOutputStream.putEndArray = some ⟨true, encode ['{', '\n'] ++
      encode (t ++ (sepText hasData ++ indentText 1 ++ literalText "logs".toList ++
        [' ', ':', ' '] ++ ('[' :: '\n' :: t' ++
          ((if hasData' then ['\n'] else []) ++ indentText 1 ++ [']'])))),
      [⟨.object, true⟩]⟩ := by
    rw [hstream, putEndArray_eq]
    simp [logsLead]
  refine ⟨{ l with jsonOutputStream := _, logStreamOpen := false }, ?_, rfl, _, true, hms', rfl⟩
  simp only [ErrorLogger.endLogStream, henabled, hopened, Bool.and_self, if_true, hput,
    Option.bind_eq_bind, Option.bind_some]

theorem Collecting.destroy {l : ErrorLogger} {ms : List (List Char × Value)}
    (h : Collecting l ms) :
    ∃ out, l.destroy = some (encode out) ∧ JsonText out (.object ms) := by
  obtain ⟨hclosed, t, hasData, hms, hstream⟩ := h
  refine ⟨_, ?_, hms.jsonText⟩
  simp only [ErrorLogger.destroy, hclosed, Bool.false_eq_true, if_false, Option.bind_eq_bind,
    Option.bind_some, hstream, if_true, putEndObject_outermost]
  simp

/-- The destructor ends a log that is still open. -/
theorem Logging.destroy {l : ErrorLogger} {ms : List (List Char × Value)} {vs : List Value}
    (h : Logging l ms vs) : ∃ out, l.destroy = some (encode out) ∧
      JsonText out (.object (ms ++ [("logs".toList, .array vs)])) := by
  obtain ⟨l', hend, h'⟩ := h.endLogStream
  obtain ⟨out, hout, hjson⟩ := h'.destroy
  refine ⟨out, ?_, hjson⟩
  rw [← hout]
  simp only [ErrorLogger.destroy, h.opened, if_true, hend, Option.bind_eq_bind, Option.bind_some,
    h'.closed, Bool.false_eq_true, if_false]

/-! ## Sessions -/

/-- What is relied on of the library that renders messages. -/
def RendersClean (render : Bytes → MsgParams → Bytes) : Prop :=
  ∀ template msgParams, CleanText template → CleanParams msgParams →
    CleanText (render template msgParams)

theorem cleanText_msgTemplate (msgId : MsgId) : CleanText (str (msgTable msgId).msgTemplate) := by
  cases msgId <;> exact .of_ascii (by decide +kernel) (by decide +kernel)

theorem Logging.addMsgs {render : Bytes → MsgParams → Bytes} (hrender : RendersClean render) :
    ∀ {msgs : List (MsgId × MsgParams)} {l : ErrorLogger} {ms : List (List Char × Value)}
      {vs : List Value}, Logging l ms vs →
      (∀ m ∈ msgs, CleanParams m.2 ∧ ∀ e ∈ m.2.entries, text e.1 ∉ reserved) →
      ∃ l' logs, (msgs.map fun m => Call.addMsg m.1 m.2).foldlM
          (fun l call => call.perform render l) l = some l' ∧
        Logging l' ms (vs ++ logs) ∧ List.Forall₂ (IsMessage render) msgs logs
  | [], l, ms, vs, h, _ => ⟨l, [], rfl, by simpa using h, .nil⟩
  | m :: msgs, l, ms, vs, h, hclean => by
      obtain ⟨⟨hparams, hnames⟩, hmsgs⟩ := List.forall_mem_cons.mp hclean
      obtain ⟨l', hl', h'⟩ := h.addMsg hparams
        (hrender _ m.2 (cleanText_msgTemplate m.1) hparams)
      obtain ⟨l'', logs, hl'', h'', hlogs⟩ := h'.addMsgs hrender hmsgs
      have hperform : Call.perform render (.addMsg m.1 m.2) l = some l' := hl'
      refine ⟨l'', _ :: logs, ?_, by simpa using h'',
        .cons (isMessage_messageJson hparams hnames) hlogs⟩
      simp only [List.map_cons, List.foldlM_cons, hperform, Option.bind_eq_bind,
        Option.bind_some, hl'']

/-- A log, ended by its own call or by the destructor. -/
theorem Collecting.log {render : Bytes → MsgParams → Bytes} (hrender : RendersClean render)
    {log : Log} {l : ErrorLogger} {ms : List (List Char × Value)} (h : Collecting l ms)
    (hmsgs : ∀ m ∈ log.msgs, CleanParams m.2 ∧ ∀ e ∈ m.2.entries, text e.1 ∉ reserved)
    (hclosing : ∀ infos, log.closing = some infos → CleanInfos infos) :
    ∃ logs out, List.Forall₂ (IsMessage render) log.msgs logs ∧
      (do
        let l ← log.calls.foldlM (fun l call => call.perform render l) l
        l.destroy) = some (encode out) ∧
      JsonText out (.object (ms ++ ("logs".toList, .array logs) ::
        infoMembers (log.closing.getD []))) := by
  obtain ⟨l₁, hstart, h₁⟩ := h.startLogStream
  obtain ⟨l₂, logs, hmsgs', h₂, hlogs⟩ := h₁.addMsgs hrender hmsgs
  have hstart' : Call.perform render .startLogStream l = some l₁ := hstart
  rw [List.nil_append] at h₂
  cases hc : log.closing with
  | none =>
      obtain ⟨out, hout, hjson⟩ := h₂.destroy
      refine ⟨logs, out, hlogs, ?_, by simpa [infoMembers] using hjson⟩
      simp only [Log.calls, hc, List.append_nil, List.foldlM_cons, hstart', Option.bind_eq_bind,
        Option.bind_some, hmsgs', hout]
  | some infos =>
      obtain ⟨l₃, hend, h₃⟩ := h₂.endLogStream
      obtain ⟨l₄, hinfos, h₄⟩ := h₃.addInfos render (hclosing infos hc)
      obtain ⟨out, hout, hjson⟩ := h₄.destroy
      have hend' : Call.perform render .endLogStream l₂ = some l₃ := hend
      refine ⟨logs, out, hlogs, ?_, by simpa using hjson⟩
      simp only [Log.calls, hc, List.cons_append, List.foldlM_cons, List.foldlM_append, hstart',
        Option.bind_eq_bind, Option.bind_some, hmsgs', hend', hinfos, hout]

/-- What a logger in JSON mode writes is one JSON object: the properties in the
order they were added, with the messages in their order. -/
theorem session_is_json {render : Bytes → MsgParams → Bytes} (hrender : RendersClean render)
    {session : Session} (hclean : session.IsClean) :
    ∃ members out, session.run render = some (encode out) ∧ JsonText out (.object members) ∧
      session.Reports render members := by
  obtain ⟨l₀, hcreate, h₀⟩ := collecting_create
  obtain ⟨l₁, hinfos, h₁⟩ := h₀.addInfos render hclean.infos
  rw [List.nil_append] at h₁
  cases hlog : session.log with
  | none =>
      obtain ⟨out, hout, hjson⟩ := h₁.destroy
      refine ⟨_, out, ?_, hjson, by simp [Session.Reports, hlog]⟩
      simp only [Session.run, hcreate, Session.calls, hlog, List.append_nil, hinfos,
        Option.bind_eq_bind, Option.bind_some, hout]
  | some log =>
      obtain ⟨logs, out, hlogs, hrun, hjson⟩ :=
        h₁.log hrender (hclean.msgs log hlog) (hclean.closing log hlog)
      refine ⟨_, out, ?_, hjson, ?_⟩
      · simp only [Session.run, hcreate, Session.calls, hlog, List.foldlM_append, hinfos,
          Option.bind_eq_bind, Option.bind_some]
        exact hrun
      · rw [Session.Reports, hlog]
        exact ⟨logs, hlogs, rfl⟩

/-- A report without favicon, whose log the destructor ends.  The template has
no tag, so that rendering leaves it as it is. -/
theorem session_is_json_favicon :
    let session : Session :=
      ⟨[(str "quick", .bool true)], some ⟨[(.missingFavicon, ∅)], none⟩⟩
    ∃ members out, session.run (fun template _ => template) = some (encode out) ∧
      JsonText out (.object members) ∧
      session.Reports (fun template _ => template) members := by
  refine session_is_json (fun _ _ h _ => h) ⟨?_, ?_, ?_⟩
  · intro i hi
    obtain rfl := List.mem_singleton.mp hi
    exact ⟨.of_ascii (by decide) (by decide), trivial⟩
  · intro log hlog m hm
    obtain rfl := Option.some.inj hlog
    obtain rfl := List.mem_singleton.mp hm
    exact ⟨⟨nofun, nofun⟩, nofun⟩
  · intro log hlog infos hinfos
    obtain rfl := Option.some.inj hlog
    exact nomatch hinfos

end ZimTools
