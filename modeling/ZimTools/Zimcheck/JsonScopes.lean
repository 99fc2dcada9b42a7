import ZimTools.Zimcheck.JsonTools

/-!
# What JSON output writes

What a sequence of outputs writes is said by three predicates, which compose
along the scopes: `Writes` for a value, `InArray` and `InObject` for elements
and members added to the open scope.  The text of the open scope so far is an
element list or a member list of the grammar, or empty while the scope has no
data (`ElementsSoFar`, `MembersSoFar`).
-/

namespace ZimTools.JSON

open Json (Value ValueText ElementsText MembersText StringBody StringText Ws JsonText)
open Utf8 (encode)

/-! ## Scopes -/

/-- The text of an array behind its bracket. -/
def ElementsSoFar (hasData : Bool) (t : List Char) (vs : List Value) : Prop :=
  if hasData then ElementsText t vs else t = [] ∧ vs = []

/-- The text of an object behind its brace. -/
def MembersSoFar (hasData : Bool) (t : List Char) (ms : List (List Char × Value)) : Prop :=
  if hasData then MembersText t ms else t = [] ∧ ms = []

/-- `f` writes a value in a scope.  In an object the name has come before. -/
def Writes (type : ScopeType) (f : OutputStream → Option OutputStream) (v : Value) : Prop :=
  ∀ (out : Bytes) (hasData : Bool) (rest : List ScopeInfo), (type = .object → hasData = true) →
    ∃ t, ValueText t v ∧ f ⟨true, out, ⟨type, hasData⟩ :: rest⟩ =
      some ⟨true, out ++ encode (leadText type hasData (rest.length + 1) ++ t),
        ⟨type, true⟩ :: rest⟩

/-- `f` adds elements to an open array. -/
def InArray (f : OutputStream → Option OutputStream) (vs : List Value) : Prop :=
  ∀ (out : Bytes) (t : List Char) (hasData : Bool) (us : List Value) (rest : List ScopeInfo),
    ElementsSoFar hasData t us → ∃ t' hasData', ElementsSoFar hasData' t' (us ++ vs) ∧
      f ⟨true, out ++ encode t, ⟨.array, hasData⟩ :: rest⟩ =
        some ⟨true, out ++ encode t', ⟨.array, hasData'⟩ :: rest⟩

/-- `f` adds members to an open object. -/
def InObject (f : OutputStream → Option OutputStream) (ms : List (List Char × Value)) : Prop :=
  ∀ (out : Bytes) (t : List Char) (hasData : Bool) (us : List (List Char × Value))
    (rest : List ScopeInfo),
    MembersSoFar hasData t us → ∃ t' hasData', MembersSoFar hasData' t' (us ++ ms) ∧
      f ⟨true, out ++ encode t, ⟨.object, hasData⟩ :: rest⟩ =
        some ⟨true, out ++ encode t', ⟨.object, hasData'⟩ :: rest⟩

theorem ws_singleton {c : Char} (hc : c ∈ [' ', '\t', '\n', '\r']) : Ws [c] := by
  intro x hx
  rwa [List.mem_singleton.mp hx]

theorem ElementsSoFar.snoc {hasData : Bool} {t t' : List Char} {vs : List Value} {v : Value}
    (h : ElementsSoFar hasData t vs) (depth : Nat) (hv : ValueText t' v) :
    ElementsSoFar true (t ++ (sepText hasData ++ indentText depth ++ t')) (vs ++ [v]) := by
  have hone : ElementsText (indentText depth ++ t') [v] := by
    simpa using ElementsText.one (ws_indentText depth) hv Ws.nil
  cases hasData with
  | false =>
      obtain ⟨rfl, rfl⟩ := h
      simpa [ElementsSoFar, sepText] using hone
  | true =>
      have hline := hone.ws_append (ws_singleton (c := '\n') (by simp))
      simpa [ElementsSoFar, sepText] using ElementsText.append h hline

theorem MembersSoFar.snoc {hasData : Bool} {t k t' : List Char}
    {ms : List (List Char × Value)} {name : List Char} {v : Value}
    (h : MembersSoFar hasData t ms) (depth : Nat) (hk : StringText k name)
    (hv : ValueText t' v) :
    MembersSoFar true
      (t ++ (sepText hasData ++ indentText depth ++ k ++ [' ', ':', ' '] ++ t'))
      (ms ++ [(name, v)]) := by
  have hspace : Ws [' '] := ws_singleton (by simp)
  have hone : MembersText (indentText depth ++ k ++ [' '] ++ ':' :: [' '] ++ t') [(name, v)] := by
    simpa using MembersText.one (ws_indentText depth) hk hspace hspace hv Ws.nil
  cases hasData with
  | false =>
      obtain ⟨rfl, rfl⟩ := h
      simpa [MembersSoFar, sepText] using hone
  | true =>
      have hline := hone.ws_append (ws_singleton (c := '\n') (by simp))
      simpa [MembersSoFar, sepText] using MembersText.append h hline

theorem Clean.stringText {cs : List Char} (h : Clean cs) : StringText (literalText cs) cs :=
  ⟨_, rfl, h.stringBody⟩

/-- A clean string, written by itself or as an element. -/
theorem writes_string (type : ScopeType) {cs : List Char} (h : Clean cs) :
    Writes type (OutputStream.put (OutputStream.outputString (encode cs))) (.string cs) := by
  intro out hasData rest _
  refine ⟨literalText cs, .string h.stringText, ?_⟩
  rw [put_enabled, outputString_eq, h.takeWhile_nul, Utf8.encode_append, List.append_assoc]

/-- A clean string has no NUL, and is written as its bytes are. -/
theorem Clean.outputCStr {cs : List Char} (h : Clean cs) :
    OutputStream.outputCStr (encode cs) = OutputStream.outputString (encode cs) := by
  rw [OutputStream.outputString, cStr_encode, h.takeWhile_nul]

/-- A truth value marks no scope, so that it can only be the value of a property. -/
theorem writes_bool (b : Bool) :
    Writes .object (OutputStream.put (OutputStream.outputBool b)) (.bool b) := by
  intro out hasData rest hdata
  rw [hdata rfl]
  cases b with
  | false =>
      refine ⟨_, .false, ?_⟩
      rw [put_enabled, Utf8.encode_append, ← List.append_assoc]
      rfl
  | true =>
      refine ⟨_, .true, ?_⟩
      rw [put_enabled, Utf8.encode_append, ← List.append_assoc]
      rfl

theorem inArray_nil : InArray some [] := by
  intro out t hasData us rest h
  exact ⟨t, hasData, by simpa using h, rfl⟩

theorem InArray.append {f g : OutputStream → Option OutputStream} {vs ws : List Value}
    (hf : InArray f vs) (hg : InArray g ws) : InArray (fun s => f s >>= g) (vs ++ ws) := by
  intro out t hasData us rest h
  obtain ⟨t', hasData', h', hf'⟩ := hf out t hasData us rest h
  obtain ⟨t'', hasData'', h'', hg'⟩ := hg out t' hasData' (us ++ vs) rest h'
  exact ⟨t'', hasData'', by simpa using h'', by simp [hf', hg']⟩

theorem Writes.inArray {f : OutputStream → Option OutputStream} {v : Value}
    (hf : Writes .array f v) : InArray f [v] := by
  intro out t hasData us rest h
  obtain ⟨t', hv, hf'⟩ := hf (out ++ encode t) hasData rest nofun
  refine ⟨_, true, h.snoc (rest.length + 1) hv, ?_⟩
  rw [hf', leadText, Utf8.encode_append t, List.append_assoc]

theorem inObject_nil : InObject some [] := by
  intro out t hasData us rest h
  exact ⟨t, hasData, by simpa using h, rfl⟩

theorem InObject.append {f g : OutputStream → Option OutputStream}
    {ms ns : List (List Char × Value)} (hf : InObject f ms) (hg : InObject g ns) :
    InObject (fun s => f s >>= g) (ms ++ ns) := by
  intro out t hasData us rest h
  obtain ⟨t', hasData', h', hf'⟩ := hf out t hasData us rest h
  obtain ⟨t'', hasData'', h'', hg'⟩ := hg out t' hasData' (us ++ ms) rest h'
  exact ⟨t'', hasData'', by simpa using h'', by simp [hf', hg']⟩

/-- The beginning of a property, up to its value. -/
theorem outputProperty_eq {key : List Char} (hkey : Clean key)
    (value : OutputStream → Option OutputStream) (out : Bytes) (hasData : Bool)
    (rest : List ScopeInfo) :
    OutputStream.put (OutputStream.outputProperty (encode key) value)
        ⟨true, out, ⟨.object, hasData⟩ :: rest⟩ =
      value ⟨true, out ++ encode (sepText hasData ++ indentText (rest.length + 1) ++
        literalText key ++ [' ', ':', ' ']), ⟨.object, true⟩ :: rest⟩ := by
  have hmark : (OutputStream.write ⟨true, out, ⟨.object, hasData⟩ :: rest⟩
      (encode (sepText hasData ++ indentText (rest.length + 1)))).markData =
      some ⟨true, out ++ encode (sepText hasData ++ indentText (rest.length + 1)),
        ⟨.object, true⟩ :: rest⟩ := rfl
  have hlead : encode (sepText hasData ++ indentText (rest.length + 1)) =
      (OutputStream.sep ⟨true, out, ⟨.object, hasData⟩ :: rest⟩) ++
        (OutputStream.indentation ⟨true, out, ⟨.object, hasData⟩ :: rest⟩) := by
    rw [Utf8.encode_append, encode_sepText, encode_indentText]
    rfl
  rw [put_enabled, leadText, Utf8.encode_nil, List.append_nil, OutputStream.outputProperty,
    ← hlead, hmark]
  simp only [Option.bind_eq_bind, Option.bind_some, put_enabled, leadText, Utf8.encode_nil,
    List.append_nil, outputString_eq, hkey.takeWhile_nul]
  simp only [OutputStream.write, Utf8.encode_append, List.append_assoc]
  rfl

theorem inObject_property {key : List Char} (hkey : Clean key)
    {value : OutputStream → Option OutputStream} {v : Value} (hvalue : Writes .object value v) :
    InObject (OutputStream.put (OutputStream.outputProperty (encode key) value)) [(key, v)] := by
  intro out t hasData us rest h
  rw [outputProperty_eq hkey]
  obtain ⟨t', hv, hvalue'⟩ := hvalue (out ++ encode t ++ encode (sepText hasData ++
    indentText (rest.length + 1) ++ literalText key ++ [' ', ':', ' '])) true rest fun _ => rfl
  refine ⟨_, true, h.snoc (rest.length + 1) hkey.stringText hv, ?_⟩
  rw [hvalue']
  simp [leadText]

/-- The text of a closed array. -/
theorem ElementsSoFar.valueText {hasData : Bool} {t : List Char} {vs : List Value}
    (h : ElementsSoFar hasData t vs) (depth : Nat) :
    ValueText ('[' :: '\n' :: t ++ ((if hasData then ['\n'] else []) ++ indentText depth ++ [']']))
      (.array vs) := by
  have hline : Ws ['\n'] := ws_singleton (by simp)
  cases hasData with
  | false =>
      obtain ⟨rfl, rfl⟩ := h
      simpa using ValueText.emptyArray (hline.append (ws_indentText depth))
  | true =>
      have h : ElementsText t vs := h
      simpa using ValueText.array
        ((h.ws_append hline).append_ws (hline.append (ws_indentText depth)))

/-- The text of a closed object. -/
theorem MembersSoFar.valueText {hasData : Bool} {t : List Char}
    {ms : List (List Char × Value)} (h : MembersSoFar hasData t ms) (depth : Nat) :
    ValueText ('{' :: '\n' :: t ++ ('\n' :: indentText depth ++ ['}'])) (.object ms) := by
  have hline : Ws ['\n'] := ws_singleton (by simp)
  cases hasData with
  | false =>
      obtain ⟨rfl, rfl⟩ := h
      simpa using ValueText.emptyObject (hline.append (hline.append (ws_indentText depth)))
  | true =>
      have h : MembersText t ms := h
      simpa using ValueText.object
        ((h.ws_append hline).append_ws (hline.append (ws_indentText depth)))

theorem putStartArray_eq (out : Bytes) (type : ScopeType) (hasData : Bool)
    (rest : List ScopeInfo) :
    OutputStream.put OutputStream.outputStartArray ⟨true, out, ⟨type, hasData⟩ :: rest⟩ =
      some ⟨true, out ++ encode (leadText type hasData (rest.length + 1) ++ ['[', '\n']) ++
        encode [], ⟨.array, false⟩ :: ⟨type, hasData⟩ :: rest⟩ := by
  rw [put_enabled, Utf8.encode_append, ← List.append_assoc, Utf8.encode_nil, List.append_nil]
  rfl

theorem putEndArray_eq (out : Bytes) (type : ScopeType) (hasData hasData' : Bool)
    (rest : List ScopeInfo) :
    OutputStream.putEndArray ⟨true, out, ⟨.array, hasData'⟩ :: ⟨type, hasData⟩ :: rest⟩ =
      some ⟨true, out ++ encode ((if hasData' then ['\n'] else []) ++
        indentText (rest.length + 1) ++ [']']), ⟨type, true⟩ :: rest⟩ := by
  rw [Utf8.encode_append, Utf8.encode_append, encode_indentText]
  cases hasData' <;> rfl

/-- The three steps of an array. -/
theorem InArray.writes {f : OutputStream → Option OutputStream} {vs : List Value}
    (hf : InArray f vs) (type : ScopeType) :
    Writes type (fun s => do
      let s ← s.put OutputStream.outputStartArray
      let s ← f s
      s.putEndArray) (.array vs) := by
  intro out hasData rest _
  obtain ⟨t, hasData', h, hf'⟩ := hf
    (out ++ encode (leadText type hasData (rest.length + 1) ++ ['[', '\n'])) [] false []
    (⟨type, hasData⟩ :: rest) ⟨rfl, rfl⟩
  refine ⟨_, h.valueText (rest.length + 1), ?_⟩
  simp only [putStartArray_eq, Option.bind_eq_bind, Option.bind_some, hf', putEndArray_eq]
  simp

/-- The three steps of an object in a scope. -/
theorem InObject.writes {f : OutputStream → Option OutputStream}
    {ms : List (List Char × Value)} (hf : InObject f ms) (type : ScopeType) :
    Writes type (fun s => do
      let s ← s.put OutputStream.outputStartObject
      let s ← f s
      s.put OutputStream.outputEndObject) (.object ms) := by
  intro out hasData rest _
  obtain ⟨t, hasData', h, hf'⟩ := hf
    (out ++ encode (leadText type hasData (rest.length + 1) ++ ['{', '\n'])) [] false []
    (⟨type, hasData⟩ :: rest) ⟨rfl, rfl⟩
  have hstart : OutputStream.put OutputStream.outputStartObject
      ⟨true, out, ⟨type, hasData⟩ :: rest⟩ =
      some ⟨true, out ++ encode (leadText type hasData (rest.length + 1) ++ ['{', '\n']) ++
        encode [], ⟨.object, false⟩ :: ⟨type, hasData⟩ :: rest⟩ := by
    rw [put_enabled, Utf8.encode_append, ← List.append_assoc, Utf8.encode_nil, List.append_nil]
    rfl
  have hend (out : Bytes) : OutputStream.put OutputStream.outputEndObject
      ⟨true, out, ⟨.object, hasData'⟩ :: ⟨type, hasData⟩ :: rest⟩ =
      some ⟨true, out ++ encode ('\n' :: indentText (rest.length + 1) ++ ['}']),
        ⟨type, true⟩ :: rest⟩ := by
    rw [put_enabled, leadText, Utf8.encode_nil, List.append_nil, List.cons_append,
      Utf8.encode_cons, Utf8.encode_append, encode_indentText]
    rfl
  refine ⟨_, h.valueText (rest.length + 1), ?_⟩
  simp only [hstart, Option.bind_eq_bind, Option.bind_some, hf', hend]
  simp

/-- The text of an object by itself, with the newline behind it. -/
theorem MembersSoFar.jsonText {hasData : Bool} {t : List Char}
    {ms : List (List Char × Value)} (h : MembersSoFar hasData t ms) :
    JsonText ('{' :: '\n' :: t ++ ['\n', '}', '\n']) (.object ms) :=
  ⟨[], _, ['\n'], by simp [indentText], Ws.nil, h.valueText 0, ws_singleton (by simp)⟩

/-- Behind the outermost brace the line ends. -/
theorem putEndObject_outermost (out : Bytes) (hasData : Bool) :
    OutputStream.put OutputStream.outputEndObject ⟨true, out, [⟨.object, hasData⟩]⟩ =
      some ⟨true, out ++ encode ['\n', '}', '\n'], []⟩ := by
  have htext : encode ['\n', '}', '\n'] = str "\n\x7d" ++ str "\n" := rfl
  rw [htext, ← List.append_assoc]
  rfl

end ZimTools.JSON
