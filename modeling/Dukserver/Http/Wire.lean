/-
# Requests on the wire

What a well-formed request is, and that the parser of `http_parse.c` reads it
back.  A request is a method, a URL, a version, header fields and a body; its
bytes are the request line, the field lines and an empty line, each ended by
CRLF, and the body.

Where the memory of the buffer is known to hold a line, each search of the line
parser is computed by that line (`scan_of_drop`), so a line parses to its parts
whatever follows it (`httpParseHeader_field`, `httpParseRequestLine_wire`), and
the loop goes through the lines one by one (`parseLinesLoop_line`).
-/

import Dukserver.Http.HeaderLine
import Dukserver.Http.LineParts
import Dukserver.Http.RecvRequest

namespace Dukserver
namespace Http

open Lib (Bytes ascii byteAt cstr slice isalpha isspace indexOf)

/-- A header field: `name:`, blanks, the value, blanks. -/
structure Field where
  name : Bytes
  before : Bytes
  value : Bytes
  after : Bytes
  deriving DecidableEq, Repr

/-- A byte that does not end a line or a string. -/
def isText (c : UInt8) : Bool := c != 13 && c != 10 && c != 0

/-- The line of the field, without its end. -/
def Field.line (f : Field) : Bytes := f.name ++ 58 :: (f.before ++ f.value ++ f.after)

/-- What the dictionary holds for the field; an empty value is `NULL`. -/
def Field.stored (f : Field) : Option Bytes := if f.value = [] then none else some f.value

/-- The name starts with a letter, contains no colon and does not end with a
space; the value neither starts nor ends with a blank. -/
structure Field.WellFormed (f : Field) : Prop where
  letter : f.name.head?.any isalpha = true
  name : f.name.all (fun c => isText c && c != 58) = true
  nameEnd : f.name.getLast? ≠ some 32
  blanks : (f.before ++ f.after).all (fun c => c == 32 || c == 9) = true
  value : f.value.all isText = true
  valueStart : f.value.head?.all (fun c => !isspace c) = true
  valueEnd : f.value.getLast?.all (fun c => !isspace c) = true

/-- The versions the parser accepts. -/
def versions : List Bytes := [ascii "HTTP/1.1", ascii "HTTP/1.0"]

/-- A request as a client sends it. -/
structure Request where
  method : Bytes
  url : Bytes
  version : Bytes
  fields : List Field
  body : Bytes
  deriving DecidableEq, Repr

/-- The request line, without its end. -/
def Request.line (r : Request) : Bytes := r.method ++ 32 :: (r.url ++ 32 :: r.version)

/-- All lines of the header, without their ends. -/
def Request.lines (r : Request) : List Bytes := r.line :: r.fields.map Field.line

/-- Lines with their ends, and an empty line. -/
def block (lines : List Bytes) : Bytes := (lines.map fun l => l ++ [13, 10]).flatten ++ [13, 10]

/-- The header block. -/
def Request.head (r : Request) : Bytes := block r.lines

/-- The request on the wire. -/
def Request.bytes (r : Request) : Bytes := r.head ++ r.body

/-- The line and the fields are well formed. -/
structure Request.WellFormed (r : Request) : Prop where
  letter : r.method.head?.any isalpha = true
  method : r.method.all (fun c => isText c && c != 32) = true
  slash : r.url.head? = some 47
  url : r.url.all (fun c => isText c && c != 32) = true
  version : r.version ∈ versions
  fields : ∀ f ∈ r.fields, f.WellFormed

/-- A field name begins with a letter, so it is not empty. -/
theorem Field.WellFormed.name_ne_nil {f : Field} (hf : f.WellFormed) : f.name ≠ [] := by
  have hletter := hf.letter
  intro hnil
  rw [hnil] at hletter
  cases hletter

/-! ### A block of lines ends with its first CRLFCRLF -/

/-- A pattern that is not at the start is found one position further on.  This
is the step of an induction over the text. -/
theorem indexOf_cons_of_not_prefix {pat l : Bytes} {c : UInt8} (hne : pat ≠ [])
    (h : ¬pat <+: c :: l) : indexOf pat (c :: l) = (indexOf pat l).map (· + 1) := by
  cases hi : indexOf pat l with
  | none =>
    rw [Option.map_none, Lib.indexOf_eq_none hne]
    rw [Lib.indexOf_eq_none hne] at hi
    rintro (_ | j) hj
    · exact h hj
    · exact hi j hj
  | some i =>
    rw [Option.map_some, Lib.indexOf_eq_some hne]
    rw [Lib.indexOf_eq_some hne] at hi
    refine ⟨hi.1, ?_⟩
    rintro (_ | j) hj hp
    · exact h hp
    · exact hi.2 j (by omega) hp

/-- No CRLFCRLF starts in a text without CR, so the search passes over it.  A
line is such a text, and the blank line is found behind the last of them. -/
theorem indexOf_append_of_text {t l : Bytes} (ht : 13 ∉ t) :
    indexOf CRLFCRLF (t ++ l) = (indexOf CRLFCRLF l).map (· + t.length) := by
  induction t with
  | nil => simp
  | cons c t ih =>
    rw [List.mem_cons, not_or] at ht
    have hno : ¬CRLFCRLF <+: c :: (t ++ l) := fun hp => ht.1 (List.cons_prefix_cons.1 hp).1
    rw [List.cons_append, indexOf_cons_of_not_prefix CRLFCRLF_ne_nil hno, ih ht.2, Option.map_map]
    congr 1

/-- **The first CRLFCRLF is at the end of the block**: each line is a text
without CR and not empty, so the CRLF that ends it is followed by another byte,
except for the last one. -/
theorem indexOf_block {l : Bytes} {lines : List Bytes}
    (h : ∀ t ∈ l :: lines, t ≠ [] ∧ 13 ∉ t) :
    indexOf CRLFCRLF (block (l :: lines)) = some ((block (l :: lines)).length - 4) := by
  induction lines generalizing l with
  | nil =>
    have hl := h l (List.mem_cons_self ..)
    have hend : indexOf CRLFCRLF ([13, 10, 13, 10] : Bytes) = some 0 := by decide
    simp only [block, List.map_cons, List.map_nil, List.flatten_cons, List.flatten_nil,
      List.append_nil, List.append_assoc, List.cons_append, List.nil_append]
    rw [indexOf_append_of_text hl.2, hend]
    simp
  | cons m lines ih =>
    have hl := h l (List.mem_cons_self ..)
    have hm := h m (List.mem_cons_of_mem _ (List.mem_cons_self ..))
    have ih := ih fun t ht => h t (List.mem_cons_of_mem _ ht)
    obtain ⟨c, t, hct⟩ := List.exists_cons_of_ne_nil hm.1
    have hblock : block (l :: m :: lines) = l ++ 13 :: 10 :: block (m :: lines) := by
      simp [block]
    have hlen : 4 ≤ (block (m :: lines)).length := by
      rw [block, hct]
      simp only [List.map_cons, List.flatten_cons, List.length_append, List.length_cons,
        List.length_nil]
      omega
    have hcr : ¬CRLFCRLF <+: 13 :: 10 :: block (m :: lines) := by
      rintro ⟨s, hs⟩
      have hc : c = 13 := by
        rw [block, hct] at hs
        simp only [CRLFCRLF, List.map_cons, List.flatten_cons, List.cons_append,
          List.cons.injEq] at hs
        exact hs.2.2.1.symm
      exact hm.2 (by rw [hct, hc]; exact List.mem_cons_self ..)
    have hlf : ¬CRLFCRLF <+: 10 :: block (m :: lines) := fun hp =>
      absurd (List.cons_prefix_cons.1 hp).1 (by decide)
    rw [hblock, indexOf_append_of_text hl.2, indexOf_cons_of_not_prefix CRLFCRLF_ne_nil hcr,
      indexOf_cons_of_not_prefix CRLFCRLF_ne_nil hlf, ih]
    simp only [Option.map_some, List.length_append, List.length_cons]
    congr 1
    omega

/-! ### Lines parse to their parts -/

section Lines

variable {mem rest : Bytes} {s len n lineno : ℕ} {hdr hdr' : HttpMap} {type : HttpParseType}

/-- The bytes of a text are those that end neither a line nor a string. -/
theorem isText_iff {c : UInt8} : isText c = true ↔ c ≠ 13 ∧ c ≠ 10 ∧ c ≠ 0 := by
  simp [isText, and_assoc]

/-- A text is a C string. -/
theorem cstr_of_isText {t : Bytes} (h : ∀ c ∈ t, isText c = true) : cstr t = t :=
  Lib.cstr_of_not_mem fun hmem => (isText_iff.1 (h 0 hmem)).2.2 rfl

/-- A text that starts with a letter is found at its start, as the first byte is
tried first. -/
theorem httpFindAlpha_of_letter {t : Bytes} (h : mem.drop s = t ++ rest)
    (ht : t.head?.any isalpha = true) (hn : 0 < n) : httpFindAlpha mem s n = some s := by
  cases t with
  | nil => exact absurd ht Bool.false_ne_true
  | cons c u =>
    have hhead : mem.drop s = [] ++ c :: (u ++ rest) := h
    exact scan_of_drop hhead (by simp) ht hn

/-- A text without `d`: the searches for `d` in a line pass over it. -/
theorem beq_of_all {t : Bytes} {d : UInt8} (h : t.all (fun c => isText c && c != d) = true) :
    ∀ c ∈ t, (c == d) = false := fun c hc => by
  have hboth := List.all_eq_true.1 h c hc
  simp only [Bool.and_eq_true, bne_iff_ne] at hboth
  exact beq_eq_false_iff_ne.2 hboth.2

/-- A line without CR has no CRLF in it. -/
theorem not_infix_of_not_mem {l : Bytes} (h : 13 ∉ l) : ¬[13, 10] <:+: l := fun hin =>
  h (hin.subset (List.mem_cons_self ..))

/-- **The loop gives a line to its parser** and goes on behind it.  It passes
over the bytes of the line, finds its end, and then jumps over the two bytes of
it. -/
theorem parseLinesLoop_line {l : Bytes} (h : mem.drop s = l ++ 13 :: 10 :: rest) (hne : l ≠ [])
    (hl : ¬[13, 10] <:+: l)
    (hline : httpParseLine type lineno mem s l.length hdr = (true, hdr')) :
    parseLinesLoop type mem (n + (l.length + 2)) s s lineno hdr =
      parseLinesLoop type mem n (s + (l.length + 2)) (s + (l.length + 2)) (lineno + 1) hdr' := by
  have hpos := List.length_pos_iff.2 hne
  have hsub : s + l.length - s = l.length := by omega
  have hlf : atCrlf mem (s + l.length + 1) = false := by
    have h' : mem.drop s = (l ++ [13]) ++ 10 :: rest := by simpa using h
    have hbyte := byteAt_of_drop h'
    rw [List.length_append, List.length_singleton] at hbyte
    rw [atCrlf, show s + l.length + 1 = s + (l.length + 1) by omega, hbyte]
    rfl
  rw [show n + (l.length + 2) = n + 1 + 1 + l.length by omega,
    parseLinesLoop_skips fun i hi => atCrlf_of_not_infix h hl hi,
    parseLinesLoop_accept (atCrlf_of_drop h) (by omega) (by rw [hsub]; exact hline),
    parseLinesLoop_skip hlf]
  rfl

/-- The empty line ends the loop, whatever is behind it. -/
theorem parseLinesLoop_end (h : mem.drop s = 13 :: 10 :: rest) :
    parseLinesLoop type mem (n + 1) s s lineno hdr = (true, hdr) :=
  parseLinesLoop_empty (atCrlf_of_drop (l := []) h) le_rfl

/-- The value of a well-formed field is what is left without the blanks: the
blanks around it are stripped, and it neither begins nor ends with one itself. -/
theorem Field.WellFormed.strippedValue_eq {f : Field} (hf : f.WellFormed) :
    strippedValue (f.before ++ (f.value ++ f.after)) = f.stored := by
  have hblank : ∀ c ∈ f.before ++ f.after, isspace c = true := fun c hc => by
    have hc' := List.all_eq_true.1 hf.blanks c hc
    simp only [Bool.or_eq_true, beq_iff_eq] at hc'
    rcases hc' with rfl | rfl <;> rfl
  have hvalue : stripped (f.before ++ (f.value ++ f.after)) = f.value :=
    stripped_append (fun c hc => hblank c (List.mem_append_left _ hc))
      (fun c hc => hblank c (List.mem_append_right _ hc))
      (fun c hc => by simpa [Option.mem_def.1 hc] using hf.valueStart)
      (fun c hc => by simpa [Option.mem_def.1 hc] using hf.valueEnd)
  rw [strippedValue, hvalue, Field.stored]

/-- **A field line is stored under its name**, with its value without the
blanks.  The first letter is the first byte, the first colon is the one behind
the name, and the rest is the value. -/
theorem httpParseHeader_field {f : Field} (hf : f.WellFormed)
    (h : mem.drop s = f.line ++ rest) :
    httpParseHeader mem s f.line.length hdr = (true, httpMapSet hdr f.name f.stored) := by
  have hline : f.line = f.name ++ 58 :: (f.before ++ (f.value ++ f.after)) := by
    rw [Field.line, List.append_assoc f.before]
  have hcolon : 58 ∉ f.name := not_mem_of_beq (beq_of_all hf.name)
  have hletter : f.line.head?.any isalpha = true := by
    rw [hline, List.head?_append_of_ne_nil _ hf.name_ne_nil]
    exact hf.letter
  have hname : f.name.rdropWhile (· == 32) = f.name :=
    List.rdropWhile_eq_self_iff.2 fun hne hlast => hf.nameEnd <| by
      rw [List.getLast?_eq_some_getLast hne, eq_of_beq hlast]
  rw [httpParseHeader_line h, fromLetter_of_letter hletter, hline,
    if_pos (List.mem_append_right _ (List.mem_cons_self ..)), lineName_append hcolon,
    lineValue_append hcolon, hname, hf.strippedValue_eq]

/-- `strstr` finds a version that is right there, since every version begins
with what it looks for. -/
theorem strstr_version {version : Bytes} (hv : version ∈ versions)
    (h : mem.drop s = version ++ rest) : strstr mem s (ascii "HTTP/") = some s := by
  have hall : ∀ v ∈ versions, ascii "HTTP/" <+: v ∧ ∀ c ∈ v, isText c = true := by
    decide +kernel
  have hpre := hall version hv
  have hcstr : cstr (version ++ rest) = version ++ cstr rest := by
    rw [cstr, List.takeWhile_append_of_pos, cstr]
    exact fun c hc => by simpa using (isText_iff.1 (hpre.2 c hc)).2.2
  have hindex : Lib.indexOf (ascii "HTTP/") (version ++ cstr rest) = some 0 := by
    rw [Lib.indexOf_eq_some (by decide)]
    exact ⟨List.prefix_append_of_prefix hpre.1, fun j hj => absurd hj (by omega)⟩
  rw [strstr, h, hcstr, hindex]
  rfl

/-- A version is the text at its place that is compared with it, if the two are
of one length. -/
theorem startsWith_version {version v : Bytes} (hlen : v.length = version.length)
    (h : mem.drop s = version ++ rest) : startsWith mem s v = (v == version) := by
  rw [startsWith, h, Bool.eq_iff_iff, List.isPrefixOf_iff_prefix, beq_iff_eq,
    List.isPrefix_append_of_length hlen.le]
  exact ⟨fun hp => hp.eq_of_length hlen, fun he => he ▸ List.prefix_rfl⟩

/-- The parts of a well-formed request line. -/
def Request.WellFormed.parts {r : Request} (hr : r.WellFormed) : LineParts where
  before := []
  method := r.method
  between := []
  url := r.url
  rest := r.version
  noLetter := fun c hc => absurd hc List.not_mem_nil
  letter := hr.letter
  methodEnd := not_mem_of_beq (beq_of_all hr.method)
  noSlash := List.not_mem_nil
  slash := hr.slash
  urlEnd := not_mem_of_beq (beq_of_all hr.url)
  restLength := by
    have hall : ∀ v ∈ versions, v ≠ [] := by decide
    exact hall _ hr.version

/-- The parts of a request line, one behind the other, are the line. -/
theorem Request.WellFormed.bytes_parts {r : Request} (hr : r.WellFormed) :
    hr.parts.bytes = r.line := by
  rw [LineParts.bytes, LineParts.start, Request.line]
  simp [parts]

/-- **A request line is stored under its three keys**: the spaces between its
parts are the first ones that the searches find, as no part has one. -/
theorem httpParseRequestLine_wire {r : Request} (hr : r.WellFormed)
    (h : mem.drop 0 = r.line ++ 13 :: rest) :
    httpParseRequestLine mem 0 r.line.length hdr =
      (true, httpMapSet (httpMapSet (httpMapSet hdr HTTP_METHOD (some r.method))
        HTTP_URL (some r.url)) HTTP_VERSION (some r.version)) := by
  rw [List.drop_zero] at h
  have hrest : (hr.parts.bytes ++ 13 :: rest).drop hr.parts.start.length =
      r.version ++ 13 :: rest := by
    rw [LineParts.bytes, List.append_assoc, List.drop_left]
    rfl
  have hlen : ∀ v ∈ versions, v.length = 8 := by decide
  have hvlen := hlen _ hr.version
  rw [h, ← hr.bytes_parts, httpParseRequestLine_parts, parseVersion,
    strstr_version hr.version hrest]
  simp only
  rw [startsWith_version (by rw [hvlen]; decide) hrest,
    startsWith_version (by rw [hvlen]; decide) hrest]
  have hmem := hr.version
  rw [versions, List.mem_cons, List.mem_singleton] at hmem
  rcases hmem with hmem | hmem
  · rw [hmem, if_pos (by decide)]
    rfl
  · rw [hmem, if_neg (by decide), if_pos (by decide)]
    rfl

/-! ### Blocks parse to their lines -/

/-- A block is its first line, the end of that, and the block of the others. -/
theorem block_cons (l : Bytes) (lines : List Bytes) :
    block (l :: lines) = l ++ 13 :: 10 :: block lines := by
  simp [block]

/-- Every block has at least the CRLF of its empty line. -/
theorem two_le_length_block (lines : List Bytes) : 2 ≤ (block lines).length := by
  rw [block, List.length_append]
  exact Nat.le_add_left ..

/-- Where a block is, its first line is, and behind that the block of the
others. -/
theorem drop_block_cons {l : Bytes} {lines : List Bytes}
    (h : mem.drop s = block (l :: lines) ++ rest) :
    mem.drop s = l ++ 13 :: 10 :: (block lines ++ rest) ∧
      mem.drop (s + (l.length + 2)) = block lines ++ rest := by
  have hsplit : mem.drop s = l ++ 13 :: 10 :: (block lines ++ rest) := by
    rw [h, block_cons, List.append_assoc]
    rfl
  refine ⟨hsplit, ?_⟩
  have hline : mem.drop s = (l ++ [13, 10]) ++ (block lines ++ rest) := by
    rw [hsplit, List.append_assoc]
    rfl
  have hdrop := drop_of_drop hline
  rwa [List.length_append] at hdrop

/-- The number of passes of the loop, which is one less than the length of the
block, goes down by the length of the line and its end. -/
theorem length_block_cons (l : Bytes) (lines : List Bytes) :
    (block (l :: lines)).length - 1 = (block lines).length - 1 + (l.length + 2) := by
  have htwo := two_le_length_block lines
  rw [block_cons, List.length_append, List.length_cons, List.length_cons]
  omega

/-- The loop goes from the first line of a block to the block of the others.  It
is the step of the induction on the lines. -/
theorem parseLinesLoop_block_cons {l : Bytes} {lines : List Bytes}
    (h : mem.drop s = block (l :: lines) ++ rest) (hne : l ≠ []) (hl : ¬[13, 10] <:+: l)
    (hline : httpParseLine type lineno mem s l.length hdr = (true, hdr')) :
    parseLinesLoop type mem ((block (l :: lines)).length - 1) s s lineno hdr =
      parseLinesLoop type mem ((block lines).length - 1) (s + (l.length + 2))
        (s + (l.length + 2)) (lineno + 1) hdr' := by
  rw [length_block_cons, parseLinesLoop_line (drop_block_cons h).1 hne hl hline]

/-- A field line has its colon at least, so it is not the empty line. -/
theorem Field.line_ne_nil (f : Field) : f.line ≠ [] := by
  rw [Field.line]
  exact List.append_ne_nil_of_right_ne_nil _ (List.cons_ne_nil _ _)

/-- No field line contains CR, as none of its four parts does. -/
theorem Field.WellFormed.not_mem_line {f : Field} (hf : f.WellFormed) : 13 ∉ f.line := by
  have hname : 13 ∉ f.name := fun hm => absurd (List.all_eq_true.1 hf.name _ hm) (by decide)
  have hblanks : 13 ∉ f.before ++ f.after := fun hm =>
    absurd (List.all_eq_true.1 hf.blanks _ hm) (by decide)
  have hvalue : 13 ∉ f.value := fun hm => absurd (List.all_eq_true.1 hf.value _ hm) (by decide)
  rw [List.mem_append, not_or] at hblanks
  rw [Field.line]
  simp [hname, hblanks.1, hblanks.2, hvalue]

/-- The dictionary after the field lines. -/
def storeFields (fields : List Field) (hdr : HttpMap) : HttpMap :=
  fields.foldl (fun m f => httpMapSet m f.name f.stored) hdr

/-- **Field lines are stored one after the other**, by induction on them, until
the empty line ends the loop. -/
theorem parseLinesLoop_fields {fields : List Field} (hf : ∀ f ∈ fields, f.WellFormed)
    (h : mem.drop s = block (fields.map Field.line) ++ rest) (hlineno : 0 < lineno) :
    parseLinesLoop type mem ((block (fields.map Field.line)).length - 1) s s lineno hdr =
      (true, storeFields fields hdr) := by
  induction fields generalizing s lineno hdr with
  | nil => exact parseLinesLoop_end (n := 0) (by rw [h]; rfl)
  | cons f fields ih =>
    have hwf := hf f (List.mem_cons_self ..)
    rw [List.map_cons] at h ⊢
    obtain ⟨hsplit, hrest⟩ := drop_block_cons h
    have hline : httpParseLine type lineno mem s f.line.length hdr =
        (true, httpMapSet hdr f.name f.stored) := by
      rw [httpParseLine, if_neg (by omega)]
      exact httpParseHeader_field hwf hsplit
    rw [parseLinesLoop_block_cons h f.line_ne_nil (not_infix_of_not_mem hwf.not_mem_line) hline,
      ih (fun g hg => hf g (List.mem_cons_of_mem _ hg)) hrest (by omega)]
    rfl

/-- A request line has its spaces at least. -/
theorem Request.line_ne_nil (r : Request) : r.line ≠ [] := by
  rw [Request.line]
  exact List.append_ne_nil_of_right_ne_nil _ (List.cons_ne_nil _ _)

/-- No request line contains CR, as none of its parts does. -/
theorem Request.WellFormed.not_mem_line {r : Request} (hr : r.WellFormed) : 13 ∉ r.line := by
  have hmethod : 13 ∉ r.method := fun hm => absurd (List.all_eq_true.1 hr.method _ hm) (by decide)
  have hurl : 13 ∉ r.url := fun hm => absurd (List.all_eq_true.1 hr.url _ hm) (by decide)
  have hversion : 13 ∉ r.version := by
    have hall : ∀ v ∈ versions, 13 ∉ v := by decide
    exact hall _ hr.version
  rw [Request.line]
  simp [hmethod, hurl, hversion]

/-- The dictionary a request parses to. -/
def Request.dict (r : Request) (c : ℕ) : HttpMap :=
  storeFields r.fields (httpMapSet (httpMapSet (httpMapSet (httpMapNew c)
    HTTP_METHOD (some r.method)) HTTP_URL (some r.url)) HTTP_VERSION (some r.version))

/-- **A block of a first line and field lines parses to what its lines store**,
whatever lies behind it in the buffer. -/
theorem httpParseLines_block {line : Bytes} {fields : List Field} (hne : line ≠ [])
    (hcr : 13 ∉ line) (hf : ∀ f ∈ fields, f.WellFormed)
    (hline : ∀ mem rest', mem.drop 0 = line ++ 13 :: rest' →
      httpParseFirstLine type mem 0 line.length hdr = (true, hdr')) :
    httpParseLines type (block (line :: fields.map Field.line) ++ rest)
      (block (line :: fields.map Field.line)).length hdr = (true, storeFields fields hdr') := by
  have hblock : (block (line :: fields.map Field.line) ++ rest).drop 0 =
      block (line :: fields.map Field.line) ++ rest := List.drop_zero
  obtain ⟨hsplit, hrest⟩ := drop_block_cons hblock
  have hfirst : httpParseLine type 0 (block (line :: fields.map Field.line) ++ rest) 0
      line.length hdr = (true, hdr') := hline _ _ hsplit
  rw [httpParseLines, parseLinesLoop_block_cons hblock hne (not_infix_of_not_mem hcr) hfirst,
    parseLinesLoop_fields hf hrest (by omega)]

/-- **The header block of a request parses to its dictionary**: the first line
by its own parser, then the fields. -/
theorem httpParseLines_wire {r : Request} (hr : r.WellFormed) (c : ℕ) :
    httpParseLines .request (r.head ++ rest) r.head.length (httpMapNew c) = (true, r.dict c) :=
  httpParseLines_block r.line_ne_nil hr.not_mem_line hr.fields fun _ _ h =>
    httpParseRequestLine_wire hr h

end Lines

/-! ### What a request is received as -/

/-- The value of a header: the last one of that name. -/
def Request.header (r : Request) (name : Bytes) : Option Bytes :=
  (r.fields.reverse.find? fun f => f.name == name).bind Field.stored

/-- The content is the request: its line, its headers and its body, and no
others. -/
structure Request.Delivered (r : Request) (ct : HttpContent) : Prop where
  method : httpMapGet ct.dict HTTP_METHOD = some r.method
  url : httpMapGet ct.dict HTTP_URL = some r.url
  version : httpMapGet ct.dict HTTP_VERSION = some r.version
  headers : ∀ name, ¬Internal (cstr name) → httpMapGet ct.dict name = r.header (cstr name)
  names : ∀ k ∈ ct.dict.keys, k ∈ firstLineKeys .request ∨ ∃ f ∈ r.fields, f.name = k
  body : ct.load ct.body = .ok r.body
  size : ct.body.size = r.body.length

section Dict

variable {r : Request} {fields : List Field} {hdr : HttpMap}

/-- The entries behind some fields are those that were set one after the other. -/
theorem values_storeFields (fields : List Field) (hdr : HttpMap) :
    (storeFields fields hdr).values = fields.foldl
      (fun e f => Lib.Assoc.set (cstr f.name) (f.stored.map cstr) e) hdr.values := by
  induction fields generalizing hdr with
  | nil => rfl
  | cons f fields ih => exact ih (httpMapSet hdr f.name f.stored)

/-- The name is stored as it is, since a copy of it ends at no NUL. -/
theorem Field.WellFormed.cstr_name {f : Field} (hf : f.WellFormed) : cstr f.name = f.name :=
  cstr_of_isText fun c hc => by
    have := List.all_eq_true.1 hf.name c hc
    rw [Bool.and_eq_true] at this
    exact this.1

/-- So is the value. -/
theorem Field.WellFormed.stored_map_cstr {f : Field} (hf : f.WellFormed) :
    f.stored.map cstr = f.stored := by
  rw [Field.stored]
  split_ifs
  · rfl
  · rw [Option.map_some, cstr_of_isText (List.all_eq_true.1 hf.value)]

/-- A field name is no internal key: those begin with a space, and a name with a
letter. -/
theorem Field.WellFormed.not_internal {f : Field} (hf : f.WellFormed) : ¬Internal f.name := by
  intro hint
  have hletter := hf.letter
  rw [Internal] at hint
  rw [hint] at hletter
  exact absurd hletter (by decide)

/-- Field lines leave the internal entries alone.  Their names start with a
letter, and those of the internal entries with a space. -/
theorem storeFields_internal (hf : ∀ f ∈ fields, f.WellFormed) :
    SameInternal hdr (storeFields fields hdr) := by
  induction fields generalizing hdr with
  | nil => exact .refl _
  | cons f fields ih =>
    have hwf := hf f (List.mem_cons_self ..)
    have hset : SameInternal hdr (storeFields [f] hdr) := sameInternal_set <| by
      rw [hwf.cstr_name]
      exact hwf.not_internal
    exact hset.trans (ih fun g hg => hf g (List.mem_cons_of_mem _ hg))

/-- The entry of a key is the last field of that name, as each field overwrites
the one before. -/
theorem lookup_storeFields (hf : ∀ f ∈ fields, f.WellFormed) (k : Bytes) :
    (storeFields fields hdr).values.lookup k =
      ((fields.reverse.find? fun f => f.name == k).map Field.stored).or (hdr.values.lookup k) := by
  have hname : ∀ l : List Field, (∀ f ∈ l, f.WellFormed) →
      ((l.find? fun f => cstr f.name == k).map fun f => f.stored.map cstr) =
        (l.find? fun f => f.name == k).map Field.stored := by
    intro l hl
    induction l with
    | nil => rfl
    | cons f l ih =>
      have hwf := hl f (List.mem_cons_self ..)
      rw [List.find?_cons, List.find?_cons, hwf.cstr_name]
      cases f.name == k with
      | true => exact congrArg some hwf.stored_map_cstr
      | false => exact ih fun g hg => hl g (List.mem_cons_of_mem _ hg)
  rw [values_storeFields, Lib.Assoc.lookup_foldl_set,
    hname _ fun f hfm => hf f (List.mem_reverse.1 hfm)]

/-- A key was there before or is the name of a field.  Names are compared as C
strings, as they are when they are stored. -/
theorem mem_keys_storeFields {k : Bytes} (hk : k ∈ (storeFields fields hdr).keys) :
    k ∈ hdr.keys ∨ ∃ f ∈ fields, cstr f.name = k := by
  induction fields generalizing hdr with
  | nil => exact .inl hk
  | cons f fields ih =>
    rcases ih hk with hk | ⟨g, hg, hgk⟩
    · rcases mem_keys_httpMapSet.1 hk with rfl | hk
      · exact .inr ⟨f, List.mem_cons_self .., rfl⟩
      · exact .inl hk
    · exact .inr ⟨g, List.mem_cons_of_mem _ hg, hgk⟩

/-- The headers of a request in its dictionary: the entries of the first line
have other keys. -/
theorem httpMapGet_dict (hr : r.WellFormed) (c : ℕ) {name : Bytes}
    (hname : ¬Internal (cstr name)) : httpMapGet (r.dict c) name = r.header (cstr name) := by
  have hother : ∀ k v (m : HttpMap), Internal k → cstr k = k →
      (httpMapSet m k v).values.lookup (cstr name) = m.values.lookup (cstr name) := by
    intro k v m hk hcstr
    rw [values_httpMapSet, Lib.Assoc.lookup_set_of_ne]
    rw [hcstr]
    rintro he
    exact hname (he ▸ hk)
  rw [httpMapGet, Request.dict, lookup_storeFields hr.fields,
    hother _ _ _ (by decide) (by decide), hother _ _ _ (by decide) (by decide),
    hother _ _ _ (by decide) (by decide), Request.header]
  cases (r.fields.reverse.find? fun f => f.name == cstr name) with
  | none => rfl
  | some f => rfl

/-- **The dictionary of a request holds its line and its headers**, so a content
with that dictionary and the body is the request delivered. -/
theorem delivered_of_dict (hr : r.WellFormed) {c : ℕ} {ct : HttpContent}
    (hdict : ct.dict = r.dict c) (hbody : ct.load ct.body = .ok r.body)
    (hsize : ct.body.size = r.body.length) :
    r.Delivered ct := by
  have htext : ∀ {xs : Bytes}, xs.all (fun c => isText c && c != 32) = true → cstr xs = xs :=
    fun hxs => cstr_of_isText fun c hc => by
      have := List.all_eq_true.1 hxs c hc
      rw [Bool.and_eq_true] at this
      exact this.1
  have hversion : cstr r.version = r.version := by
    have hall : ∀ v ∈ versions, cstr v = v := by decide
    exact hall _ hr.version
  have hint : ∀ k, Internal (cstr k) → httpMapGet (r.dict c) k =
      httpMapGet (httpMapSet (httpMapSet (httpMapSet (httpMapNew c) HTTP_METHOD (some r.method))
        HTTP_URL (some r.url)) HTTP_VERSION (some r.version)) k := fun k hk => by
    rw [httpMapGet, httpMapGet, Request.dict, storeFields_internal hr.fields _ hk]
  refine ⟨?_, ?_, ?_, fun name hname => ?_, fun k hk => ?_, hbody, hsize⟩
  · rw [hdict, hint _ (by decide), httpMapGet_set_of_ne (by decide),
      httpMapGet_set_of_ne (by decide), httpMapGet_set_self rfl, Option.map_some, htext hr.method]
  · rw [hdict, hint _ (by decide), httpMapGet_set_of_ne (by decide), httpMapGet_set_self rfl,
      Option.map_some, htext hr.url]
  · rw [hdict, hint _ (by decide), httpMapGet_set_self rfl, Option.map_some, hversion]
  · rw [hdict, httpMapGet_dict hr c hname]
  · rw [hdict] at hk
    rcases mem_keys_storeFields hk with hk | ⟨f, hf, rfl⟩
    · left
      simp only [mem_keys_httpMapSet, keys_httpMapNew, List.not_mem_nil, or_false] at hk
      rcases hk with rfl | rfl | rfl <;> decide
    · exact .inr ⟨f, hf, ((hr.fields f hf).cstr_name).symm⟩

end Dict

end Http
end Dukserver
