import SecureZ.Daemon.Requests
import SecureZ.Lib.Decimal
import SecureZ.Shell.Expansion

/-!
# The fields of a flat request object

A request is an object of pairs, each a key and a text or a number, written without spaces.
The daemon never parses it: it searches for `"field":"` or `"field":` as a substring.

The main result says that the search is as good as a parser.  A quoted key with its colon
occurs in the text of an object only where a pair with this key begins, whatever the values
are, so `extract_field` and `extract_int` read the first pair that they are for.
-/

namespace SecureZ
namespace Daemon

open CLib
open Shell

section Objects

/-- The name of a field: letters, digits and underscores. -/
structure Identifier where
  bytes : Bytes
  ne_nil : bytes ≠ []
  nameBytes : ∀ b ∈ bytes, isNameByte b = true
  short : bytes.length < 120

/-- A text that stands between quotes as it is. -/
structure PlainText extends CString where
  quoteFree : quote ∉ bytes

/-- The value of digits with a sign. -/
def signedValue (negative : Bool) (digits : Bytes) : Int :=
  if negative then -(digitsValue digits : Int) else digitsValue digits

/-- A decimal number in the range of an `int`. -/
structure DecimalInt where
  negative : Bool
  digits : Bytes
  ne_nil : digits ≠ []
  isDigits : ∀ b ∈ digits, isDigit b = true
  lower : -(2 ^ 31) ≤ signedValue negative digits
  upper : signedValue negative digits < 2 ^ 31

def DecimalInt.value (n : DecimalInt) : Int :=
  signedValue n.negative n.digits

def DecimalInt.text (n : DecimalInt) : Bytes :=
  if n.negative then byte '-' :: n.digits else n.digits

/-- What a pair holds. -/
inductive FlatValue
  | text (t : PlainText)
  | int (n : DecimalInt)

def FlatValue.render : FlatValue → Bytes
  | .text t => quote :: (t.bytes ++ [quote])
  | .int n => n.text

/-- The text that a value holds. -/
def FlatValue.asText : FlatValue → Option CString
  | .text t => some t.toCString
  | .int _ => none

structure FlatPair where
  key : Identifier
  value : FlatValue

def FlatPair.render (p : FlatPair) : Bytes :=
  quote :: (p.key.bytes ++ quote :: byte ':' :: p.value.render)

/-- The text of an object. -/
def objectText (pairs : List FlatPair) : Bytes :=
  byte '\x7b' :: (List.intercalate [byte ','] (pairs.map FlatPair.render) ++ [byte '\x7d'])

/-- The value of the first pair with a key. -/
def firstValue (pairs : List FlatPair) (f : Identifier) : Option FlatValue :=
  pairs.findSome? fun p => if p.key.bytes = f.bytes then some p.value else none

/-- The text of the first pair with a key and a text. -/
def firstText (pairs : List FlatPair) (f : Identifier) : Option CString :=
  pairs.findSome? fun p => if p.key.bytes = f.bytes then p.value.asText else none

end Objects

section Bytes

theorem Identifier.not_mem
    {b : UInt8}
    (h : isNameByte b = false)
    (f : Identifier) :
    b ∉ f.bytes := by
  intro hb
  rw [f.nameBytes b hb] at h
  cases h

/-- An identifier begins with a byte of a name. -/
theorem Identifier.head_ne
    {b : UInt8}
    (h : isNameByte b = false)
    (f : Identifier) :
    f.bytes.head?.getD b ≠ b := by
  intro hb
  cases hf : f.bytes with
  | nil =>
      exact f.ne_nil hf
  | cons c bs =>
      rw [hf, List.head?_cons, Option.getD_some] at hb
      subst hb
      exact f.not_mem h (by rw [hf]; exact List.mem_cons_self)

theorem Identifier.quote_not_mem
    (f : Identifier) :
    quote ∉ f.bytes :=
  f.not_mem (by decide)

theorem DecimalInt.not_mem_text
    {b : UInt8}
    (h : isDigit b = false)
    (hminus : b ≠ byte '-')
    (n : DecimalInt) :
    b ∉ n.text := by
  have hdigits : b ∉ n.digits := by
    intro hb
    rw [n.isDigits b hb] at h
    cases h
  unfold DecimalInt.text
  split_ifs
  · simp [hminus, hdigits]
  · exact hdigits

theorem DecimalInt.quote_not_mem
    (n : DecimalInt) :
    quote ∉ n.text :=
  n.not_mem_text (by decide) (by decide)

theorem DecimalInt.text_ne_nil
    (n : DecimalInt) :
    n.text ≠ [] := by
  unfold DecimalInt.text
  split_ifs
  · simp
  · exact n.ne_nil

theorem nul_not_mem_render
    (p : FlatPair) :
    (0 : UInt8) ∉ p.render := by
  have hkey : (0 : UInt8) ∉ p.key.bytes := p.key.not_mem (by decide)
  have hvalue : (0 : UInt8) ∉ p.value.render := by
    cases p.value with
    | text t =>
        simp [FlatValue.render, quote, t.nulFree]
    | int n =>
        exact n.not_mem_text (by decide) (by decide)
  simp [FlatPair.render, quote, byte, hkey, hvalue]

/-- The byte behind a pair: a comma, or the brace that ends the object. -/
def EndsPair (c : UInt8) : Prop :=
  c = byte ',' ∨ c = byte '\x7d'

/-- The byte behind a pair is not part of a name, of a key or of a number. -/
theorem endsPair_spec
    {c : UInt8}
    (hc : EndsPair c) :
    isNameByte c = false ∧ c ≠ byte ':' ∧ c ≠ quote ∧ endsNumber c = true := by
  rcases hc with rfl | rfl <;> decide

/-- The text of an object up to a pair in it, and what follows that pair. -/
theorem objectText_append
    (front : List FlatPair) (p : FlatPair) (back : List FlatPair) :
    ∃ c rest,
      EndsPair c ∧
        objectText (front ++ p :: back) =
          byte '\x7b' :: (front.flatMap (fun q => q.render ++ [byte ',']) ++
            (p.render ++ c :: rest)) := by
  induction front with
  | nil =>
      cases back with
      | nil =>
          exact ⟨byte '\x7d', [], .inr rfl, by simp [objectText]⟩
      | cons q back =>
          refine ⟨byte ',', List.intercalate [byte ','] ((q :: back).map FlatPair.render) ++
            [byte '\x7d'], .inl rfl, ?_⟩
          simp only [objectText, List.nil_append, List.map_cons, List.intercalate_cons_cons,
            List.flatMap_nil, List.append_assoc, List.cons_append]
  | cons q front ih =>
      obtain ⟨c, rest, hc, htext⟩ := ih
      refine ⟨c, rest, hc, ?_⟩
      simp only [objectText, List.cons.injEq, true_and] at htext ⊢
      have hrest : (front ++ p :: back).map FlatPair.render ≠ [] := by simp
      obtain ⟨r, rs, hrs⟩ := List.exists_cons_of_ne_nil hrest
      rw [hrs] at htext
      rw [List.cons_append, List.map_cons, hrs, List.intercalate_cons_cons, List.flatMap_cons,
        List.append_assoc, List.append_assoc, htext]
      simp only [List.append_assoc]

theorem nul_not_mem_objectText
    (pairs : List FlatPair) :
    (0 : UInt8) ∉ objectText pairs := by
  induction pairs with
  | nil =>
      decide
  | cons p pairs ih =>
      cases pairs with
      | nil =>
          simp [objectText, nul_not_mem_render, byte]
      | cons q pairs =>
          have hcomma : (0 : UInt8) ∉ [byte ','] := by decide
          simp only [objectText, List.map_cons, List.intercalate_cons_cons, List.mem_append,
            List.mem_cons (b := byte '\x7b'), not_or] at ih ⊢
          exact ⟨ih.1, ⟨⟨nul_not_mem_render p, hcomma⟩, ih.2.1⟩, ih.2.2⟩

/-- The object as the text of a request. -/
def objectJson (pairs : List FlatPair) : CString where
  bytes := objectText pairs
  nulFree := nul_not_mem_objectText pairs

@[simp] theorem objectJson_bytes
    (pairs : List FlatPair) :
    (objectJson pairs).bytes = objectText pairs :=
  rfl

end Bytes

section Search

/-- A key in quotes with its colon, and what is searched for behind it. -/
def searchFor (f : Identifier) (tail : Bytes) : Bytes :=
  quote :: (f.bytes ++ quote :: byte ':' :: tail)

theorem fieldSearch_identifier
    (f : Identifier) :
    fieldSearch f.bytes = searchFor f [quote] := by
  have hshort := f.short
  exact fieldSearch_eq (by omega)

theorem intSearch_identifier
    (f : Identifier) :
    intSearch f.bytes = searchFor f [] := by
  have hshort := f.short
  exact intSearch_eq (by omega)

/-- The search does not succeed at the brace that opens an object. -/
theorem skips_object
    {f : Identifier} {tail pairs : Bytes}
    (h : skips (searchFor f tail) pairs = true) :
    skips (searchFor f tail) (byte '\x7b' :: pairs) = true :=
  @skips_append _ [byte '\x7b'] _ (skips_of_head_not_mem (by decide)) h

/-- Inside a pair, behind the quote that opens it, there is no quoted key with its colon. -/
theorem skips_behind_quote
    {c : UInt8}
    (hc : EndsPair c)
    (f : Identifier) (tail : Bytes) (p : FlatPair) :
    skips (searchFor f tail)
      (p.key.bytes ++ quote :: byte ':' :: (p.value.render ++ [c])) = true := by
  obtain ⟨hname, hcolon, hquote, -⟩ := endsPair_spec hc
  have hkey : skips (searchFor f tail) p.key.bytes = true :=
    skips_of_head_not_mem p.key.quote_not_mem
  have hpair : skips (searchFor f tail) [quote, byte ':'] = true :=
    skips_quote_pair (by decide) (f.head_ne (by decide)) _
  have hvalue : skips (searchFor f tail) (p.value.render ++ [c]) = true := by
    cases p.value with
    | text t =>
        have := @skips_quoted quote c (byte ':') f.bytes t.bytes tail f.quote_not_mem
          t.quoteFree hcolon hquote (f.head_ne hname)
        simpa [FlatValue.render, searchFor] using this
    | int n =>
        have hfree : quote ∉ n.text ++ [c] := by
          simp [n.quote_not_mem, Ne.symm hquote]
        exact skips_of_head_not_mem hfree
  exact skips_append hkey (skips_append hpair hvalue)

/-- The search does not succeed in a pair, whatever follows it. -/
def PassedOver (needle : Bytes) (p : FlatPair) : Prop :=
  ∀ c, EndsPair c → skips needle (p.render ++ [c]) = true

/-- A pair is passed over unless the search succeeds where it begins. -/
theorem passedOver_of_clash
    {f : Identifier} {tail : Bytes} {p : FlatPair}
    (h : ∀ c, clash (searchFor f tail) (p.render ++ [c]) = true) :
    PassedOver (searchFor f tail) p := by
  intro c hc
  have hopen := h c
  have hrest := skips_behind_quote hc f tail p
  simp only [FlatPair.render, List.cons_append, List.append_assoc] at hopen ⊢
  simp only [skips, Bool.and_eq_true]
  exact ⟨hopen, hrest⟩

/-- A pair with another key is passed over. -/
theorem passedOver_of_key_ne
    {f : Identifier} {p : FlatPair}
    (h : p.key.bytes ≠ f.bytes)
    (tail : Bytes) :
    PassedOver (searchFor f tail) p := by
  refine passedOver_of_clash fun c => ?_
  simp only [FlatPair.render, List.cons_append, List.append_assoc]
  exact clash_of_words_ne f.quote_not_mem p.key.quote_not_mem (Ne.symm h) _ _

/-- The search for a text passes over a number. -/
theorem passedOver_of_int
    {f : Identifier} {p : FlatPair} {n : DecimalInt}
    (hkey : p.key.bytes = f.bytes)
    (hvalue : p.value = .int n) :
    PassedOver (searchFor f [quote]) p := by
  refine passedOver_of_clash fun c => ?_
  have hsplit :
      ∀ x, quote :: (f.bytes ++ quote :: byte ':' :: x) =
        (quote :: (f.bytes ++ [quote, byte ':'])) ++ x := by simp
  obtain ⟨b, bs, hbs⟩ := List.exists_cons_of_ne_nil n.text_ne_nil
  have hb : quote ≠ b := by
    rintro rfl
    exact n.quote_not_mem (by rw [hbs]; exact List.mem_cons_self)
  have hrender :
      p.render ++ [c] =
        (quote :: (f.bytes ++ [quote, byte ':'])) ++ (b :: (bs ++ [c])) := by
    rw [FlatPair.render, hvalue, hkey, FlatValue.render, hbs]
    simp
  -- the key is the same, so what decides is the byte behind the colon
  rw [hrender, searchFor, hsplit, clash_append_left]
  simp [clash, List.isPrefixOf, hb]

/-- The search for a text passes over the pairs that do not hold it. -/
theorem passedOver_of_no_text
    {f : Identifier} {p : FlatPair}
    (h : (if p.key.bytes = f.bytes then p.value.asText else none) = none) :
    PassedOver (searchFor f [quote]) p := by
  by_cases hkey : p.key.bytes = f.bytes
  · rw [if_pos hkey] at h
    cases hvalue : p.value with
    | text t =>
        rw [hvalue] at h
        cases h
    | int n =>
        exact passedOver_of_int hkey hvalue
  · exact passedOver_of_key_ne hkey _

/-- The search for a number passes over the pairs with another key. -/
theorem passedOver_of_no_value
    {f : Identifier} {p : FlatPair}
    (h : (if p.key.bytes = f.bytes then some p.value else none) = none) :
    PassedOver (searchFor f []) p := by
  refine passedOver_of_key_ne (fun hkey => ?_) _
  rw [if_pos hkey] at h
  cases h

/-- In an object all of whose pairs are passed over, the search fails. -/
theorem strstr_objectText_eq_none
    {f : Identifier} {tail : Bytes} {pairs : List FlatPair}
    (h : ∀ p ∈ pairs, PassedOver (searchFor f tail) p) :
    strstr (searchFor f tail) (objectText pairs) = none := by
  have hpairs :
      skips (searchFor f tail)
        (List.intercalate [byte ','] (pairs.map FlatPair.render) ++ [byte '\x7d']) = true := by
    induction pairs with
    | nil =>
        exact skips_of_head_not_mem (by decide)
    | cons p pairs ih =>
        have hp := h p List.mem_cons_self
        have hrest := ih fun q hq => h q (List.mem_cons_of_mem p hq)
        cases pairs with
        | nil =>
            simpa using hp _ (.inr rfl)
        | cons q pairs =>
            have := skips_append (hp _ (.inl rfl)) hrest
            simpa [List.intercalate_cons_cons] using this
  have htext : skips (searchFor f tail) (objectText pairs) = true :=
    skips_object hpairs
  have hend := strstr_append_of_skips htext []
  rw [List.append_nil] at hend
  rw [hend]
  rfl

/-- Behind pairs that are passed over, the search comes to the next pair. -/
theorem exists_skips_front
    {f : Identifier} {tail : Bytes} {front : List FlatPair}
    (h : ∀ q ∈ front, PassedOver (searchFor f tail) q)
    (p : FlatPair) (back : List FlatPair) :
    ∃ passed c rest,
      skips (searchFor f tail) passed = true ∧
        EndsPair c ∧
        objectText (front ++ p :: back) = passed ++ (p.render ++ c :: rest) := by
  obtain ⟨c, rest, hc, htext⟩ := objectText_append front p back
  refine ⟨byte '\x7b' :: front.flatMap (fun q => FlatPair.render q ++ [byte ',']), c, rest, ?_, hc,
    htext⟩
  have hfront :
      skips (searchFor f tail) (front.flatMap fun q => q.render ++ [byte ',']) = true := by
    clear htext
    induction front with
    | nil =>
        rfl
    | cons q front ih =>
        have hq := h q List.mem_cons_self
        exact skips_append (hq _ (.inl rfl))
          (ih fun r hr => h r (List.mem_cons_of_mem q hr))
  exact skips_object hfront

end Search

section Extract

/-- A decimal number is read as its value, whatever follows the pair. -/
theorem atoi_text
    {c : UInt8}
    (hc : EndsPair c)
    (n : DecimalInt) (rest : Bytes) :
    atoi (n.text ++ c :: rest) = n.value := by
  obtain ⟨-, -, -, hends⟩ := endsPair_spec hc
  have hlower := n.lower
  have hupper := n.upper
  have hread : strtol10 n.text = n.value := by
    unfold DecimalInt.text DecimalInt.value
    cases hsign : n.negative with
    | true =>
        simp only [hsign, signedValue, if_true] at hlower ⊢
        exact strtol10_minus n.isDigits (by omega)
    | false =>
        simp only [hsign, signedValue, Bool.false_eq_true, if_false] at hupper ⊢
        exact strtol10_digits n.ne_nil n.isDigits (by omega)
  rw [atoi_append hends, atoi, hread]
  exact Int.bmod_eq_of_le (by simpa [DecimalInt.value] using hlower)
    (by simpa [DecimalInt.value] using hupper)

/-- `extract_field` reads the first pair with the key and a text. -/
theorem extractField_objectJson
    (pairs : List FlatPair) (f : Identifier) :
    extractField (objectJson pairs) f.bytes = firstText pairs f := by
  cases hfirst : firstText pairs f with
  | none =>
      have hnone := List.findSome?_eq_none_iff.mp hfirst
      have hsearch : strstr (fieldSearch f.bytes) (objectJson pairs).bytes = none := by
        rw [fieldSearch_identifier]
        exact strstr_objectText_eq_none fun p hp => passedOver_of_no_text (hnone p hp)
      rw [extractField, hsearch]
      rfl
  | some value =>
      obtain ⟨front, p, back, rfl, hvalue, hfront⟩ := List.findSome?_eq_some_iff.mp hfirst
      obtain ⟨passed, c, rest, hskips, -, htext⟩ :=
        exists_skips_front (fun q hq => passedOver_of_no_text (hfront q hq)) p back
      split_ifs at hvalue with hkey
      cases htype : p.value with
      | int n =>
          rw [htype] at hvalue
          cases hvalue
      | text t =>
          rw [htype] at hvalue
          obtain rfl := Option.some.inj hvalue
          have hbytes :
              (objectJson (front ++ p :: back)).bytes =
                passed ++ (fieldSearch f.bytes ++ (t.bytes ++ quote :: c :: rest)) := by
            rw [objectJson_bytes, htext, fieldSearch_identifier]
            simp [FlatPair.render, FlatValue.render, searchFor, htype, hkey]
          rw [← fieldSearch_identifier] at hskips
          have hwhole := List.take_length.symm.trans (congrArg (List.take _) hbytes)
          refine (extractField_eq_some_iff hwhole hskips).mpr ⟨t.quoteFree, ?_⟩
          rw [hbytes]
          simp only [List.length_append, List.length_cons]
          omega

/-- `extract_int` reads the first pair with the key if it holds a number. -/
theorem extractInt_objectJson_of_int
    {pairs : List FlatPair} {f : Identifier} {n : DecimalInt}
    (h : firstValue pairs f = some (.int n)) :
    extractInt (objectJson pairs) f.bytes = n.value := by
  obtain ⟨front, p, back, rfl, hvalue, hfront⟩ := List.findSome?_eq_some_iff.mp h
  obtain ⟨passed, c, rest, hskips, hc, htext⟩ :=
    exists_skips_front (fun q hq => passedOver_of_no_value (hfront q hq)) p back
  split_ifs at hvalue with hkey
  have hbytes :
      (objectJson (front ++ p :: back)).bytes =
        passed ++ (intSearch f.bytes ++ (n.text ++ c :: rest)) := by
    rw [objectJson_bytes, htext, intSearch_identifier]
    simp [FlatPair.render, FlatValue.render, searchFor, Option.some.inj hvalue, hkey]
  rw [← intSearch_identifier] at hskips
  rw [extractInt, hbytes, strstr_append_needle hskips]
  dsimp only
  rw [List.drop_left]
  exact atoi_text hc n rest

/-- Without a pair with the key, `extract_int` returns −1. -/
theorem extractInt_objectJson_of_none
    {pairs : List FlatPair} {f : Identifier}
    (h : firstValue pairs f = none) :
    extractInt (objectJson pairs) f.bytes = -1 := by
  have hnone := List.findSome?_eq_none_iff.mp h
  have hsearch : strstr (intSearch f.bytes) (objectJson pairs).bytes = none := by
    rw [intSearch_identifier]
    exact strstr_objectText_eq_none fun p hp => passedOver_of_no_value (hnone p hp)
  rw [extractInt, hsearch]

/--
**The substring searches of the daemon read the pairs of a flat object.**

`extract_field` returns the text of the first pair with the key and a text.  `extract_int`
returns the number of the first pair with the key, and −1 where no pair has it.
-/
theorem extract_flat_object
    (pairs : List FlatPair) (f : Identifier) :
    extractField (objectJson pairs) f.bytes = firstText pairs f ∧
      (∀ n, firstValue pairs f = some (.int n) →
        extractInt (objectJson pairs) f.bytes = n.value) ∧
      (firstValue pairs f = none → extractInt (objectJson pairs) f.bytes = -1) :=
  ⟨extractField_objectJson pairs f, fun _ => extractInt_objectJson_of_int,
    extractInt_objectJson_of_none⟩

/-- The field `path`. -/
def pathField : Identifier :=
  ⟨ascii "path", by decide, List.all_eq_true.mp (by decide), by decide⟩

def minusTwelve : DecimalInt :=
  ⟨true, ascii "12", by decide, List.all_eq_true.mp (by decide), by decide, by decide⟩

/-- An object with a value that is also a key, and a key that stands twice. -/
def samplePairs : List FlatPair :=
  [⟨⟨ascii "cmd", by decide, List.all_eq_true.mp (by decide), by decide⟩,
      .text ⟨⟨ascii "path", by decide⟩, by decide⟩⟩,
    ⟨pathField, .int minusTwelve⟩,
    ⟨pathField, .text ⟨⟨ascii "/tmp", by decide⟩, by decide⟩⟩]

example :
    objectText samplePairs =
      ascii "\x7b\"cmd\":\"path\",\"path\":-12,\"path\":\"/tmp\"\x7d" := by
  decide

/-- Both pairs with the key are read, each by the search that it is for. -/
theorem extract_samplePairs :
    extractField (objectJson samplePairs) (ascii "path") =
        some ⟨ascii "/tmp", by decide⟩ ∧
      extractInt (objectJson samplePairs) (ascii "path") = -12 :=
  ⟨(extract_flat_object samplePairs pathField).1.trans rfl,
    ((extract_flat_object samplePairs pathField).2.1 minusTwelve rfl).trans (by decide)⟩

end Extract

end Daemon
end SecureZ
