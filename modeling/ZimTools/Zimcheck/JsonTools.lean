import ZimTools.Std.Bytes
import ZimTools.Lib.Utf8
import ZimTools.Lib.Json

/-!
# JSON output

`JSON::OutputStream` writes a JSON text piece by piece.  It keeps a stack of the
open scopes, and for each whether something was written in it, from which it
finds out where a comma goes.  The overloads of `operator<<` and of `output` are
functions from a stream to a stream.  One that fails an assertion, or marks the
innermost of no scopes, has no result.

`output(const char*)` escapes quotation marks, backslashes and newlines and
passes everything else on, and it ends at a NUL.  `string_literal_iff` says for
which strings that is enough.
-/

namespace ZimTools.JSON

open Json (Value ValueText ElementsText MembersText StringBody StringText Ws JsonText)
open Utf8 (encode)

/-! ## The stream -/

inductive ScopeType where
  | object
  | array
deriving DecidableEq, Repr

structure ScopeInfo where
  type : ScopeType
  hasData : Bool
deriving DecidableEq, Repr

/-- Whether `m_out` is set, what was written to it, and `m_nesting`, whose top
comes first. -/
structure OutputStream where
  enabled : Bool
  out : Bytes
  nesting : List ScopeInfo
deriving DecidableEq, Repr

namespace OutputStream

def sep (s : OutputStream) : Bytes :=
  match s.nesting with
  | [] => []
  | scope :: _ => if scope.hasData then str ",\n" else []

def indentation (s : OutputStream) : Bytes := List.replicate (2 * s.nesting.length) (char ' ')

def write (s : OutputStream) (text : Bytes) : OutputStream := { s with out := s.out ++ text }

/-- What is written under `if ( m_out )`. -/
def writeIfEnabled (s : OutputStream) (text : Bytes) : OutputStream :=
  if s.enabled then s.write text else s

/-- `m_nesting.top().hasData = true`. -/
def markData (s : OutputStream) : Option OutputStream :=
  match s.nesting with
  | [] => none
  | scope :: rest => some { s with nesting := { scope with hasData := true } :: rest }

/-- The template `operator<<`, for the overload of `output` it calls. -/
def put (output : OutputStream → Option OutputStream) (s : OutputStream) : Option OutputStream :=
  if s.enabled then
    match s.nesting with
    | ⟨.array, _⟩ :: _ => output (s.write (s.sep ++ s.indentation))
    | _ => output s
  else some s

def outputBool (b : Bool) (s : OutputStream) : Option OutputStream :=
  some (s.write (if b then str "true" else str "false"))

/-- How `output(const char*)` writes one character. -/
def escapeByte (b : UInt8) : Bytes :=
  if b = char '"' ∨ b = char '\\' then [char '\\', b]
  else if b = char '\n' then str "\\n"
  else [b]

def outputCStr (text : Bytes) (s : OutputStream) : Option OutputStream := do
  let s ← s.markData
  some (s.write (char '"' :: text.flatMap escapeByte ++ [char '"']))

def outputString (text : Bytes) : OutputStream → Option OutputStream :=
  outputCStr (Bytes.cStr text)

def outputStartObject (s : OutputStream) : Option OutputStream :=
  let s := s.writeIfEnabled (str "\x7b\n")
  some { s with nesting := ⟨.object, false⟩ :: s.nesting }

def outputEndObject (s : OutputStream) : Option OutputStream :=
  match s.nesting with
  | ⟨.object, _⟩ :: rest =>
      let s := { s with nesting := rest }
      let s := s.writeIfEnabled (str "\n" ++ s.indentation ++ str "\x7d")
      if rest.isEmpty then some (s.write (str "\n")) else s.markData
  | _ => none

def outputStartArray (s : OutputStream) : Option OutputStream :=
  let s := s.writeIfEnabled (str "[\n")
  some { s with nesting := ⟨.array, false⟩ :: s.nesting }

/-- `operator<<(EndArray)`. -/
def putEndArray (s : OutputStream) : Option OutputStream :=
  match s.nesting with
  | ⟨.array, hasData⟩ :: rest =>
      let s := { s with nesting := rest }
      let s := s.writeIfEnabled ((if hasData then str "\n" else []) ++ s.indentation ++ str "]")
      if rest.isEmpty then some s else s.markData
  | _ => none

/-- The overload for a `Property`, for the overload its value is written with. -/
def outputProperty (key : Bytes) (value : OutputStream → Option OutputStream)
    (s : OutputStream) : Option OutputStream := do
  let s ← (s.write (s.sep ++ s.indentation)).markData
  let s ← s.put (outputString key)
  value (s.write (str " : "))

end OutputStream

/-! ## The text between the values -/

def sepText (hasData : Bool) : List Char := if hasData then [',', '\n'] else []

def indentText (depth : Nat) : List Char := List.replicate (2 * depth) ' '

/-- What `operator<<` writes before a value in a scope. -/
def leadText (type : ScopeType) (hasData : Bool) (depth : Nat) : List Char :=
  match type with
  | .object => []
  | .array => sepText hasData ++ indentText depth

theorem encode_indentText (depth : Nat) :
    encode (indentText depth) = List.replicate (2 * depth) (char ' ') := by
  rw [indentText]
  induction 2 * depth with
  | zero => rfl
  | succ n ih => rw [List.replicate_succ, Utf8.encode_cons, ih]; rfl

theorem encode_sepText (hasData : Bool) :
    encode (sepText hasData) = if hasData then str ",\n" else [] := by
  cases hasData <;> rfl

theorem ws_indentText (depth : Nat) : Ws (indentText depth) := by
  intro c hc
  simp [List.eq_of_mem_replicate hc]

theorem put_enabled (output : OutputStream → Option OutputStream) (out : Bytes)
    (type : ScopeType) (hasData : Bool) (rest : List ScopeInfo) :
    OutputStream.put output ⟨true, out, ⟨type, hasData⟩ :: rest⟩ =
      output ⟨true, out ++ encode (leadText type hasData (rest.length + 1)),
        ⟨type, hasData⟩ :: rest⟩ := by
  cases type with
  | object => simp [OutputStream.put, leadText]
  | array =>
      simp [OutputStream.put, leadText, OutputStream.write, OutputStream.sep,
        OutputStream.indentation, encode_sepText, encode_indentText]

/-! ## Strings -/

/-- What is written for a character. -/
def escapeChar (c : Char) : List Char :=
  if c = '"' ∨ c = '\\' then ['\\', c]
  else if c = '\n' then ['\\', 'n']
  else [c]

/-- What is written for a string without NUL. -/
def literalText (cs : List Char) : List Char := '"' :: cs.flatMap escapeChar ++ ['"']

/-- The characters that are written as they have to be. -/
def CleanChar (c : Char) : Prop := c = '\n' ∨ ' ' ≤ c

instance : DecidablePred CleanChar := fun c => inferInstanceAs (Decidable (c = '\n' ∨ ' ' ≤ c))

def Clean (cs : List Char) : Prop := ∀ c ∈ cs, CleanChar c

instance (cs : List Char) : Decidable (Clean cs) := List.decidableBAll CleanChar cs

/-- Characters that are one byte in UTF-8. -/
def Ascii (cs : List Char) : Prop := ∀ c ∈ cs, c.toNat < 128

instance (cs : List Char) : Decidable (Ascii cs) := 
  List.decidableBAll (fun c : Char => c.toNat < 128) cs

theorem ofNat_eq_char {c d : Char} (hc : c.toNat < 128) (hd : d.toNat < 128) :
    UInt8.ofNat c.toNat = char d ↔ c = d := by
  constructor
  · intro h
    have hnat : c.toNat = d.toNat := by
      have := congrArg UInt8.toNat h
      rwa [char, Utf8.toNat_ofNat (by omega), Utf8.toNat_ofNat (by omega)] at this
    exact Char.toNat_inj.mp hnat
  · rintro rfl
    rfl

theorem str_eq_encode {s : String} (h : Ascii s.toList) :
    str s = encode s.toList := by
  rw [str]
  generalize s.toList = cs at h
  induction cs with
  | nil => rfl
  | cons c cs ih =>
      obtain ⟨hc, hcs⟩ := List.forall_mem_cons.mp h
      rw [List.map_cons, ih hcs, Utf8.encode_cons, Utf8.encodeChar_ascii hc]
      rfl

/-- The bytes of a character are escaped as the character is. -/
theorem flatMap_escapeByte_encodeChar (c : Char) :
    (String.utf8EncodeChar c).flatMap OutputStream.escapeByte = encode (escapeChar c) := by
  by_cases hc : c.toNat < 128
  · have hencode (x : Char) (hx : x.toNat < 128) : encode [x] = [char x] := by
      rw [Utf8.encode_cons, Utf8.encodeChar_ascii hx]
      rfl
    rw [Utf8.encodeChar_ascii hc, List.flatMap_singleton, OutputStream.escapeByte, escapeChar]
    simp only [ofNat_eq_char hc (show '"'.toNat < 128 by decide),
      ofNat_eq_char hc (show '\\'.toNat < 128 by decide),
      ofNat_eq_char hc (show '\n'.toNat < 128 by decide)]
    split
    · rw [Utf8.encode_cons, hencode c hc]
      rfl
    · split
      · rfl
      · exact (hencode c hc).symm
  · have hne (d : Char) (hd : d.toNat < 128) : c ≠ d := fun h => hc (h ▸ hd)
    have hbyte : ∀ b ∈ String.utf8EncodeChar c, OutputStream.escapeByte b = [b] := by
      intro b hb
      have hle : 128 ≤ b.toNat :=
        UInt8.le_iff_toNat_le.mp (Utf8.le_of_mem_encodeChar (Nat.not_lt.mp hc) b hb)
      have hb (d : Char) (hd : d.toNat < 128) : b ≠ char d := by
        rintro rfl
        rw [char, Utf8.toNat_ofNat (by omega)] at hle
        omega
      rw [OutputStream.escapeByte, if_neg (by simp [hb '"' (by decide), hb '\\' (by decide)]),
        if_neg (hb '\n' (by decide))]
    rw [escapeChar, if_neg (by simp [hne '"' (by decide), hne '\\' (by decide)]),
      if_neg (hne '\n' (by decide)), List.flatMap_congr hbyte]
    simp [encode]

theorem flatMap_escapeByte_encode (cs : List Char) :
    (encode cs).flatMap OutputStream.escapeByte = encode (cs.flatMap escapeChar) := by
  induction cs with
  | nil => rfl
  | cons c cs ih =>
      rw [Utf8.encode_cons, List.flatMap_append, flatMap_escapeByte_encodeChar, ih,
        List.flatMap_cons, Utf8.encode_append]

/-- A C function sees the characters before the first NUL. -/
theorem cStr_encode (cs : List Char) :
    Bytes.cStr (encode cs) = encode (cs.takeWhile (· ≠ Char.ofNat 0)) := by
  induction cs with
  | nil => rfl
  | cons c cs ih =>
      rw [Utf8.encode_cons]
      by_cases hc : c = Char.ofNat 0
      · subst hc
        rfl
      · have hbytes : ∀ b ∈ String.utf8EncodeChar c, (b != 0) = true := by
          intro b hb
          rw [bne_iff_ne]
          rintro rfl
          by_cases hlow : c.toNat < 128
          · rw [Utf8.encodeChar_ascii hlow, List.mem_singleton] at hb
            exact hc ((ofNat_eq_char hlow (by decide)).mp hb.symm)
          · exact absurd (Utf8.le_of_mem_encodeChar (Nat.not_lt.mp hlow) 0 hb) (by decide)
        rw [Bytes.cStr, List.takeWhile_append_of_pos hbytes, List.takeWhile_cons_of_pos (by simpa),
          Utf8.encode_cons, ← ih]
        rfl

theorem Clean.takeWhile_nul {cs : List Char} (h : Clean cs) :
    cs.takeWhile (· ≠ Char.ofNat 0) = cs := by
  rw [List.takeWhile_eq_self_iff]
  intro c hc
  simp only [ne_eq, decide_not, Bool.not_eq_eq_eq_not, Bool.not_true, decide_eq_false_iff_not]
  rintro rfl
  exact absurd (h _ hc) (by decide)

/-- A clean string is decoded from what is written for it. -/
theorem Clean.stringBody {cs : List Char} (h : Clean cs) :
    StringBody (cs.flatMap escapeChar) cs := by
  induction cs with
  | nil => exact .nil
  | cons c cs ih =>
      obtain ⟨hc, hcs⟩ := List.forall_mem_cons.mp h
      rw [List.flatMap_cons, escapeChar]
      split
      · rename_i hq
        refine .escape ?_ (ih hcs)
        rcases hq with rfl | rfl <;> rfl
      · rename_i hq
        split
        · rename_i hn
          subst hn
          exact .escape rfl (ih hcs)
        · rename_i hn
          exact .unescaped (hc.resolve_left hn) (fun hx => hq (Or.inl hx))
            (fun hx => hq (Or.inr hx)) (ih hcs)

/-- Any other character is left as it is. -/
theorem mem_flatMap_escapeChar {c : Char} {cs : List Char} (h : c ∈ cs) (hc : ¬ CleanChar c) :
    c ∈ cs.flatMap escapeChar := by
  refine List.mem_flatMap.mpr ⟨c, h, ?_⟩
  have hspecial : ¬ (c = '"' ∨ c = '\\') := by
    rintro (rfl | rfl) <;> exact hc (Or.inr (by decide))
  rw [escapeChar, if_neg hspecial, if_neg fun hn => hc (Or.inl hn)]
  exact List.mem_singleton_self c

/-- The string is decoded from what is written for it exactly when it is clean. -/
theorem stringText_literalText_iff (cs : List Char) :
    StringText (literalText (cs.takeWhile (· ≠ Char.ofNat 0))) cs ↔ Clean cs := by
  constructor
  · rintro ⟨body, htext, hbody⟩
    obtain rfl := List.append_cancel_right (List.cons.inj htext).2
    have hclean : Clean (cs.takeWhile (· ≠ Char.ofNat 0)) := by
      intro c hc
      by_contra hbad
      exact hbad (Or.inr (hbody.space_le c (mem_flatMap_escapeChar hc hbad)))
    -- What is read back is clean, so that the string cannot go on behind a NUL.
    exact hbody.det hclean.stringBody ▸ hclean
  · intro h
    rw [h.takeWhile_nul]
    exact ⟨_, rfl, h.stringBody⟩

theorem encode_literalText (cs : List Char) :
    encode (literalText cs) =
      char '"' :: (encode cs).flatMap OutputStream.escapeByte ++ [char '"'] := by
  rw [literalText, List.cons_append, Utf8.encode_cons, Utf8.encode_append,
    flatMap_escapeByte_encode]
  rfl

/-- `output(const std::string&)` in an open scope. -/
theorem outputString_eq (cs : List Char) (out : Bytes) (type : ScopeType) (hasData : Bool)
    (rest : List ScopeInfo) :
    OutputStream.outputString (encode cs) ⟨true, out, ⟨type, hasData⟩ :: rest⟩ =
      some ⟨true, out ++ encode (literalText (cs.takeWhile (· ≠ Char.ofNat 0))),
        ⟨type, true⟩ :: rest⟩ := by
  rw [OutputStream.outputString, cStr_encode, encode_literalText]
  rfl

/-- What the stream writes for a UTF-8 string is a string literal that stands
for it exactly when the string has no control character but newlines. -/
theorem string_literal_iff (s : List Char) (out : Bytes) (type : ScopeType) (hasData : Bool)
    (rest : List ScopeInfo) :
    ∃ written, OutputStream.put (OutputStream.outputString (encode s))
        ⟨true, out, ⟨type, hasData⟩ :: rest⟩ =
        some ⟨true, out ++ encode (leadText type hasData (rest.length + 1)) ++ written,
          ⟨type, true⟩ :: rest⟩ ∧
      ((∃ text, written = encode text ∧ StringText text s) ↔ ∀ c ∈ s, c = '\n' ∨ ' ' ≤ c) := by
  refine ⟨encode (literalText (s.takeWhile (· ≠ Char.ofNat 0))), ?_, ?_⟩
  · rw [put_enabled, outputString_eq]
  · rw [← show Clean s ↔ ∀ c ∈ s, c = '\n' ∨ ' ' ≤ c from Iff.rfl,
      ← stringText_literalText_iff]
    constructor
    · rintro ⟨text, htext, hs⟩
      rwa [Utf8.encode_injective htext]
    · exact fun h => ⟨_, rfl, h⟩

/-- A tab goes unescaped. -/
theorem tab_breaks_literal :
    ¬ ∀ (s : List Char) (out : Bytes) (type : ScopeType) (hasData : Bool)
        (rest : List ScopeInfo),
      ∃ text, StringText text s ∧ OutputStream.put (OutputStream.outputString (encode s))
        ⟨true, out, ⟨type, hasData⟩ :: rest⟩ =
        some ⟨true, out ++ encode (leadText type hasData (rest.length + 1)) ++ encode text,
          ⟨type, true⟩ :: rest⟩ := by
  intro h
  obtain ⟨text, hs, hput⟩ := h ['\t'] [] .object true []
  have htext : encode text = encode (literalText ['\t']) := by
    rw [put_enabled, outputString_eq] at hput
    simpa [leadText] using hput.symm
  rw [Utf8.encode_injective htext] at hs
  exact absurd ((stringText_literalText_iff ['\t']).mp hs '\t' (List.mem_singleton_self _))
    (by decide)

end ZimTools.JSON
