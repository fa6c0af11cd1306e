/-
# Receiving the header block

`libhttpd/http_string.c`, `http_find_crlf`, and `libhttpd/http_sendrecv.c`,
`http_recv_headers` (lines 305-358).  Each pass receives into the rest of the
header buffer and looks for CRLFCRLF in what is new, going back three bytes if
there is something before it.

The length of the scan is `(got - 3) - start_pos`.  It fits for a later pass, and
for a first pass of at least three bytes, and the passes then find the first
CRLFCRLF of the stream wherever it is cut (`httpRecvHeaders_found`).  A first
pass of one or two bytes gives a negative length, which `while (len--)` takes for
a huge one: the scan leaves the received bytes (`httpRecvHeaders_fault`).
-/

import Dukserver.Http.Connection
import Dukserver.Http.Content

namespace Dukserver
namespace Http

open Lib (Bytes ascii indexOf delivered after reach toInt32)

/-- The end of a header block. -/
def CRLFCRLF : Bytes := [13, 10, 13, 10]

/-- The terminator is not empty, so it is not found in front of everything. -/
theorem CRLFCRLF_ne_nil : CRLFCRLF ≠ [] := by decide

/-- It has four bytes, which is why the scan stops three bytes before the end. -/
theorem length_CRLFCRLF : CRLFCRLF.length = 4 := rfl

/-- Read a byte of the received ones. -/
def readAt (buf : Bytes) (i : ℤ) : Except Fault UInt8 :=
  if 0 ≤ i ∧ i < buf.length then .ok (Lib.byteAt buf i.toNat) else .error .uninitialised

/-- `p[0] == pat[0] && p[1] == pat[1] && ..`, which stops at the first
difference. -/
def matchAt (buf : Bytes) (p : ℤ) : Bytes → Except Fault Bool
  | [] => .ok true
  | c :: pat =>
    match readAt buf p with
    | .error e => .error e
    | .ok b => if b = c then matchAt buf (p + 1) pat else .ok false

/-- `http_find_crlf` with the number of passes its loop makes. -/
def findCrlfLoop (buf : Bytes) (pbuf : ℤ) : ℕ → Except Fault (Option ℤ)
  | 0 => .ok none
  | n + 1 =>
    match matchAt buf pbuf CRLFCRLF with
    | .error e => .error e
    | .ok true => .ok (some pbuf)
    | .ok false => findCrlfLoop buf (pbuf + 1) n

/-- `http_find_crlf`: `while (len--)` on an `int` of 32 bits. -/
def httpFindCrlf (buf : Bytes) (pbuf len : ℤ) : Except Fault (Option ℤ) :=
  findCrlfLoop buf pbuf (len % 2 ^ 32).toNat

/-- A call of `http_find_crlf`: where it starts in the header buffer, and `len`. -/
structure Scan where
  pbuf : ℤ
  len : ℤ
  deriving DecidableEq, Repr

/-- What `http_recv_headers` returns and leaves behind, with its calls of
`http_find_crlf`. -/
structure RecvHeaders where
  ret : ℤ
  ct : HttpContent
  conn : HttpConnection
  scans : List Scan
  deriving DecidableEq, Repr

/-- The loop of `http_recv_headers`. -/
def recvHeadersLoop : ℕ → HttpContent → HttpConnection → List Scan → Except Fault RecvHeaders
  | 0, _, _, _ => .error .outOfFuel
  | fuel + 1, ct, conn, scans =>
    let nrReceived := ct.headerbuf.buf.length
    let r := socketRecv conn.handle (ct.headerbuf.maxsize - nrReceived)
    let conn := { conn with handle := r.2 }
    let got := r.1.length
    if got ≤ 0 then .ok ⟨-1, ct, conn, scans⟩
    else
      let buf := ct.headerbuf.buf ++ r.1
      let ct := { ct with headerbuf := { ct.headerbuf with buf := buf } }
      let startPos : ℤ := if got < nrReceived + got then -3 else 0
      let pbuf := nrReceived + startPos
      -- unsigned arithmetic, converted to the `int` parameter
      let len := toInt32 ((got - 3) - startPos)
      let scans := scans ++ [⟨pbuf, len⟩]
      match httpFindCrlf buf pbuf len with
      | .error e => .error e
      | .ok none => recvHeadersLoop fuel ct conn scans
      | .ok (some pemptyNl) =>
        let headerSize := pemptyNl + 4
        let bodySize := buf.length - headerSize
        .ok ⟨headerSize,
          { ct with
            header := ⟨.headerbuf 0, headerSize⟩
            body := ⟨if bodySize = 0 then .null else .headerbuf headerSize.toNat, bodySize⟩ },
          conn, scans⟩

/-- `http_recv_headers`: every pass but the last receives a byte. -/
def httpRecvHeaders (conn : HttpConnection) (ct : HttpContent) : Except Fault RecvHeaders :=
  recvHeadersLoop (ct.headerbuf.maxsize + 1) ct conn []

/-! ### The scan -/

section Scan

variable {buf : Bytes}

/-- A byte that was received is read. -/
theorem readAt_of_lt {p : ℕ} (h : p < buf.length) : readAt buf p = .ok (buf[p]) := by
  rw [readAt, if_pos ⟨by omega, by omega⟩, Int.toNat_natCast]
  simp [Lib.byteAt, h]

/-- A byte behind those that were received is not initialised. -/
theorem readAt_of_le {p : ℕ} (h : buf.length ≤ p) : readAt buf p = .error .uninitialised := by
  rw [readAt, if_neg (by omega)]

/-- A comparison inside the received bytes is one with the pattern, byte for
byte. -/
theorem matchAt_of_le {pat : Bytes} {p : ℕ} (h : p + pat.length ≤ buf.length) :
    matchAt buf p pat = .ok (pat.isPrefixOf (buf.drop p)) := by
  induction pat generalizing p with
  | nil => rfl
  | cons c pat ih =>
    rw [List.length_cons] at h
    have hp : p < buf.length := by omega
    rw [matchAt, readAt_of_lt hp, List.drop_eq_getElem_cons hp, List.isPrefixOf]
    by_cases hc : buf[p] = c
    · simp only [hc, if_pos, BEq.rfl, Bool.true_and]
      exact_mod_cast ih (by omega)
    · simp only [hc, if_false]
      rw [beq_eq_false_iff_ne.2 (Ne.symm hc), Bool.false_and]

/-- A comparison that goes past them is a fault, or fails before: which of the
two depends on whether the bytes that are there begin the pattern. -/
theorem matchAt_of_not_prefix {pat : Bytes} {p : ℕ} (h : ¬pat <+: buf.drop p) :
    matchAt buf p pat = .error .uninitialised ∨ matchAt buf p pat = .ok false := by
  induction pat generalizing p with
  | nil => exact absurd List.nil_prefix h
  | cons c pat ih =>
    rw [matchAt]
    by_cases hp : p < buf.length
    · rw [readAt_of_lt hp]
      by_cases hc : buf[p] = c
      · simp only [hc, if_pos]
        have hnext : ¬pat <+: buf.drop (p + 1) := fun hpre => h <| by
          rw [List.drop_eq_getElem_cons hp, hc]
          exact List.cons_prefix_cons.2 ⟨rfl, hpre⟩
        exact_mod_cast ih hnext
      · simp only [hc, if_false, or_true]
    · rw [readAt_of_le (by omega)]
      exact .inl rfl

/-- A scan that stays inside the received bytes returns the first place, by
induction on the places that are left. -/
theorem findCrlfLoop_eq {p n : ℕ} (h : p + n + 3 ≤ buf.length) :
    findCrlfLoop buf p n = .ok (((List.range' p n).find? fun i =>
      CRLFCRLF.isPrefixOf (buf.drop i)).map ((↑) : ℕ → ℤ)) := by
  induction n generalizing p with
  | zero => rfl
  | succ n ih =>
    have hle : p + CRLFCRLF.length ≤ buf.length := by
      rw [length_CRLFCRLF]
      omega
    rw [findCrlfLoop, matchAt_of_le hle, List.range'_succ, List.find?_cons]
    cases CRLFCRLF.isPrefixOf (buf.drop p) with
    | true => rfl
    | false => exact_mod_cast ih (p := p + 1) (by omega)

/-- A scan that runs past the received bytes is a fault, if nothing stops it
before: the first place it cannot compare is behind the last byte. -/
theorem findCrlfLoop_fault {p n : ℕ} (hp : p ≤ buf.length) (hn : buf.length < p + n)
    (h : ∀ i, ¬CRLFCRLF <+: buf.drop i) : findCrlfLoop buf p n = .error .uninitialised := by
  induction n generalizing p with
  | zero => omega
  | succ n ih =>
    rw [findCrlfLoop]
    rcases matchAt_of_not_prefix (h p) with hm | hm
    · rw [hm]
    · rw [hm]
      by_cases hlt : p < buf.length
      · exact_mod_cast ih (p := p + 1) (by omega) (by omega)
      · rw [CRLFCRLF, matchAt, readAt_of_le (by omega)] at hm
        cases hm

/-- From the last place it cannot have been before, the scan finds the first one
of all.  The places in front were looked at by the passes before this one. -/
theorem find_eq_indexOf {p n : ℕ} (hlen : p + n + 3 = buf.length)
    (h : ∀ j < p, ¬CRLFCRLF <+: buf.drop j) :
    ((List.range' p n).find? fun i => CRLFCRLF.isPrefixOf (buf.drop i)) =
      indexOf CRLFCRLF buf := by
  cases hi : indexOf CRLFCRLF buf with
  | none =>
    rw [Lib.indexOf_eq_none CRLFCRLF_ne_nil] at hi
    rw [List.find?_range'_eq_none]
    intro i _ _
    rw [Bool.not_eq_true', ← Bool.not_eq_true, List.isPrefixOf_iff_prefix]
    exact hi i
  | some i =>
    have hle := Lib.indexOf_le CRLFCRLF_ne_nil hi
    rw [length_CRLFCRLF] at hle
    rw [Lib.indexOf_eq_some CRLFCRLF_ne_nil] at hi
    have hpi : p ≤ i := not_lt.1 fun hlt => h i hlt hi.1
    rw [List.find?_range'_eq_some]
    refine ⟨List.isPrefixOf_iff_prefix.2 hi.1, by rw [List.mem_range'_1]; omega, fun j _ hj => ?_⟩
    rw [Bool.not_eq_true', ← Bool.not_eq_true, List.isPrefixOf_iff_prefix]
    exact hi.2 j hj

end Scan

/-! ### The passes -/

/-- The content while its header is received: `buf` is what has arrived. -/
def receiving (buf : Bytes) : HttpContent :=
  { httpContentNew with headerbuf := { httpContentNew.headerbuf with buf := buf } }

/-- The content once its header is received: the first `h` bytes of `buf`. -/
def withHeader (buf : Bytes) (h : ℕ) : HttpContent :=
  { receiving buf with
    header := ⟨.headerbuf 0, h⟩
    body := ⟨if buf.length = h then .null else .headerbuf h, (buf.length - h : ℤ)⟩ }

/-- The connection after `n` bytes were received. -/
def HttpConnection.after (conn : HttpConnection) (n : ℕ) : HttpConnection :=
  { conn with handle := { conn.handle with incoming := Lib.after n conn.handle.incoming } }

/-- The first receive gets nothing or at least three bytes. -/
def FirstChunkOk (cs : List Bytes) : Prop := ∀ c, cs.head? = some c → c = [] ∨ 3 ≤ c.length

/-- What holds between two passes. -/
structure Receiving (buf : Bytes) (conn : HttpConnection) (scans : List Scan) : Prop where
  unfound : indexOf CRLFCRLF buf = none
  le : buf.length ≤ HTTP_MAX_BUFFER_SIZE
  started : buf = [] ∨ 3 ≤ buf.length
  first : buf = [] → FirstChunkOk conn.handle.incoming
  scans : ∀ c ∈ scans, 0 ≤ c.len

section Passes

variable {buf data : Bytes} {conn : HttpConnection} {handle : Socket} {scans : List Scan} {fuel : ℕ}

/-- The size of the buffer is an `int`, so the lengths are computed without a
wrap. -/
theorem size_lt : (HTTP_MAX_BUFFER_SIZE : ℤ) < 2 ^ 31 := by decide

/-- `http_find_crlf` on the part that can hold a new CRLFCRLF finds the first
one in all received bytes. -/
theorem httpFindCrlf_eq {p n : ℕ} (hlen : p + n + 3 = buf.length)
    (hle : buf.length ≤ HTTP_MAX_BUFFER_SIZE) (h : ∀ j < p, ¬CRLFCRLF <+: buf.drop j) :
    httpFindCrlf buf p n = .ok ((indexOf CRLFCRLF buf).map ((↑) : ℕ → ℤ)) := by
  have hn : ((n : ℤ) % 2 ^ 32).toNat = n := by
    have := size_lt
    rw [Int.emod_eq_of_lt (by omega) (by omega), Int.toNat_natCast]
  rw [httpFindCrlf, hn, findCrlfLoop_eq hlen.le, find_eq_indexOf hlen h]

/-- **The scan of a pass fits.**  It starts where a new CRLFCRLF can start, and
reads to the end of what was received, so it is no negative length. -/
theorem scan_args {nr got : ℕ} (h₁ : nr = 0 → 3 ≤ got) (h₂ : nr = 0 ∨ 3 ≤ nr) (h₃ : 0 < got)
    (hle : nr + got ≤ HTTP_MAX_BUFFER_SIZE) :
    ∃ p n : ℕ, p + n + 3 = nr + got ∧ p ≤ nr - 3 ∧
      (nr : ℤ) + (if got < nr + got then -3 else 0) = p ∧
      toInt32 ((got : ℤ) - 3 - (if got < nr + got then -3 else 0)) = n := by
  have hsize := size_lt
  rcases h₂ with rfl | h₂
  · have := h₁ rfl
    refine ⟨0, got - 3, by omega, le_rfl, by simp, ?_⟩
    rw [if_neg (by omega), Lib.toInt32_of_bounds (by omega) (by omega)]
    omega
  · refine ⟨nr - 3, got, by omega, le_rfl, ?_, ?_⟩
    · rw [if_pos (by omega)]
      omega
    · rw [if_pos (by omega), Lib.toInt32_of_bounds (by omega) (by omega)]
      omega

/-- A pass that receives nothing is the last one, and the header was not found. -/
theorem recvHeadersLoop_stop
    (hrecv : socketRecv conn.handle (HTTP_MAX_BUFFER_SIZE - buf.length) = ([], handle)) :
    recvHeadersLoop (fuel + 1) (receiving buf) conn scans =
      .ok ⟨-1, receiving buf, { conn with handle := handle }, scans⟩ := by
  rw [recvHeadersLoop]
  simp only [receiving, httpContentNew, hrecv, List.length_nil, le_refl, if_true]

/-- **One pass.**  It ends with the first CRLFCRLF of what has arrived, if there
is one, and goes on otherwise; its scan has a length that is not negative. -/
theorem recvHeadersLoop_pass (fuel : ℕ) (h : Receiving buf conn scans)
    (hrecv : socketRecv conn.handle (HTTP_MAX_BUFFER_SIZE - buf.length) = (data, handle))
    (hdata : 0 < data.length) (hfirst : buf = [] → 3 ≤ data.length)
    (hle : (buf ++ data).length ≤ HTTP_MAX_BUFFER_SIZE) :
    ∃ c : Scan, 0 ≤ c.len ∧ recvHeadersLoop (fuel + 1) (receiving buf) conn scans =
      match indexOf CRLFCRLF (buf ++ data) with
      | none =>
        recvHeadersLoop fuel (receiving (buf ++ data)) { conn with handle := handle } (scans ++ [c])
      | some i =>
        .ok ⟨(i + 4 : ℕ), withHeader (buf ++ data) (i + 4), { conn with handle := handle },
          scans ++ [c]⟩ := by
  rw [List.length_append] at hle
  obtain ⟨p, n, hsum, hp, hpbuf, hlen⟩ := scan_args
    (fun h₀ => hfirst (List.length_eq_zero_iff.1 h₀))
    (h.started.imp List.length_eq_zero_iff.2 id) hdata hle
  have hbefore : ∀ j < p, ¬CRLFCRLF <+: (buf ++ data).drop j := by
    intro j hj hpre
    have hno := (Lib.indexOf_eq_none CRLFCRLF_ne_nil).1 h.unfound j
    rw [Lib.prefix_drop_append (by rw [length_CRLFCRLF]; omega)] at hpre
    exact hno hpre
  have hscan : httpFindCrlf (buf ++ data) p n =
      .ok ((indexOf CRLFCRLF (buf ++ data)).map ((↑) : ℕ → ℤ)) :=
    httpFindCrlf_eq (by rw [List.length_append]; exact hsum)
      (by rw [List.length_append]; exact hle) hbefore
  refine ⟨⟨p, n⟩, Int.natCast_nonneg n, ?_⟩
  rw [recvHeadersLoop]
  simp only [receiving, httpContentNew, hrecv, if_neg (not_le.2 hdata), hpbuf, hlen, hscan]
  cases indexOf CRLFCRLF (buf ++ data) with
  | none => rfl
  | some i =>
    have hsize : ((buf ++ data).length : ℤ) - ((i : ℤ) + 4) = 0 ↔
        (buf ++ data).length = i + 4 := by omega
    have hoff : ((i : ℤ) + 4).toNat = i + 4 := by omega
    simp only [Option.map_some, withHeader, receiving, httpContentNew, hsize, hoff, Nat.cast_add,
      Nat.cast_ofNat]

/-- What a pass receives is the next part of the stream, at most as much as
there is room for. -/
theorem socketRecv_cons {c : Bytes} {cs : List Bytes} {n : ℕ} (hc : c ≠ [])
    (hcs : handle.incoming = c :: cs) :
    socketRecv handle n = (c.take n,
      { handle with incoming := after (c.take n).length handle.incoming }) := by
  rw [socketRecv, hcs, Lib.pull_eq hc]

/-- A stream that is over gives nothing, and the loop ends. -/
theorem socketRecv_delivered_nil {n : ℕ} (h : delivered handle.incoming = []) :
    ∃ handle', socketRecv handle n = ([], handle') :=
  ⟨_, by rw [socketRecv, Lib.pull_of_delivered_eq_nil Nat.one_pos h]⟩

/-- **What the next pass receives**, as long as the buffer has room and the
stream goes on: a part of the stream, and a whole chunk unless it fills the
buffer. -/
theorem exists_pass (h : Receiving buf conn scans)
    (hroom : buf.length < HTTP_MAX_BUFFER_SIZE) (hd : delivered conn.handle.incoming ≠ []) :
    ∃ data, socketRecv conn.handle (HTTP_MAX_BUFFER_SIZE - buf.length) =
        (data, { conn.handle with incoming := after data.length conn.handle.incoming }) ∧
      0 < data.length ∧ (buf = [] → 3 ≤ data.length) ∧
      (buf ++ data).length ≤ HTTP_MAX_BUFFER_SIZE ∧
      data = (delivered conn.handle.incoming).take data.length ∧
      (∀ n ≤ data.length, min (buf.length + reach n conn.handle.incoming) HTTP_MAX_BUFFER_SIZE =
        buf.length + data.length) ∧
      ∀ n, data.length < n → buf.length + data.length < HTTP_MAX_BUFFER_SIZE →
        reach n conn.handle.incoming =
          data.length + reach (n - data.length) (after data.length conn.handle.incoming) := by
  cases hcs : conn.handle.incoming with
  | nil => rw [hcs] at hd; exact absurd rfl hd
  | cons c cs =>
    have hc : c ≠ [] := by rintro rfl; rw [hcs] at hd; exact hd rfl
    have hpos := List.length_pos_iff.2 hc
    refine ⟨c.take (HTTP_MAX_BUFFER_SIZE - buf.length), hcs ▸ socketRecv_cons hc hcs, ?_, ?_, ?_,
      ?_, ?_, ?_⟩
    · rw [List.length_take]
      omega
    · rintro rfl
      have h₃ : 3 ≤ c.length := (h.first rfl c (by rw [hcs]; rfl)).resolve_left hc
      rw [List.length_take, List.length_nil, show HTTP_MAX_BUFFER_SIZE = 10240 from rfl]
      omega
    · rw [List.length_append, List.length_take]
      omega
    · rw [Lib.delivered_cons hc, List.take_append_of_le_length (by simp)]
      simp
    · intro n hn
      rw [List.length_take] at hn ⊢
      rw [Lib.reach_cons_of_le (by omega)]
      omega
    · intro n hn hlt
      rw [List.length_take] at hn hlt ⊢
      have hwhole : min (HTTP_MAX_BUFFER_SIZE - buf.length) c.length = c.length := by omega
      rw [hwhole] at hn ⊢
      rw [Lib.reach_cons_of_lt hn, Lib.after_cons_of_le hc le_rfl, Nat.sub_self, Lib.after_zero]

/-- No scan has a negative length if those before have none and this one has
none. -/
theorem nonneg_concat {c : Scan} (h : ∀ d ∈ scans, 0 ≤ d.len) (hc : 0 ≤ c.len) :
    ∀ d ∈ scans ++ [c], 0 ≤ d.len := by
  intro d hd
  rcases List.mem_append.1 hd with hd | hd
  · exact h d hd
  · rw [List.mem_singleton.1 hd]
    exact hc

/-- A pass without a CRLFCRLF is followed by another, with what it received
behind what was there: the invariant of the loop. -/
theorem Receiving.next {c : Scan} (handle : Socket) (h : Receiving buf conn scans)
    (hdata : 0 < data.length) (hfirst : buf = [] → 3 ≤ data.length)
    (hle : (buf ++ data).length ≤ HTTP_MAX_BUFFER_SIZE) (hc : 0 ≤ c.len)
    (hnone : indexOf CRLFCRLF (buf ++ data) = none) :
    Receiving (buf ++ data) { conn with handle := handle } (scans ++ [c]) := by
  refine ⟨hnone, hle, .inr ?_, fun hnil => ?_, fun d hd => ?_⟩
  · rw [List.length_append]
    rcases h.started with rfl | h₃
    · have := hfirst rfl
      omega
    · omega
  · rw [(List.append_eq_nil_iff.1 hnil).2] at hdata
    exact absurd hdata (lt_irrefl _)
  · exact nonneg_concat h.scans hc d hd

/-- What is an initial part is not longer. -/
theorem length_le_of_eq_take {d : Bytes} (h : data = d.take data.length) :
    data.length ≤ d.length := by
  have := congrArg List.length h
  rw [List.length_take] at this
  omega

/-- The bytes received so far and those to come are the same before and after a
pass: it only moves some from one side to the other. -/
theorem append_delivered_after (buf : Bytes)
    (hdata : data = (delivered conn.handle.incoming).take data.length) :
    buf ++ data ++ delivered (after data.length conn.handle.incoming) =
      buf ++ delivered conn.handle.incoming := by
  rw [Lib.delivered_after (length_le_of_eq_take hdata), List.append_assoc]
  congr 1
  conv_lhs => arg 1; rw [hdata]
  exact List.take_append_drop ..

/-- The header, if it is not in the received bytes, ends behind them, and within
the buffer. -/
theorem lt_of_indexOf_take {d : Bytes} {i : ℕ} (hbuf : indexOf CRLFCRLF buf = none)
    (hi : indexOf CRLFCRLF ((buf ++ d).take HTTP_MAX_BUFFER_SIZE) = some i) :
    buf.length < i + 4 ∧ i + 4 ≤ HTTP_MAX_BUFFER_SIZE := by
  obtain ⟨hi, hle⟩ := (Lib.indexOf_take CRLFCRLF_ne_nil).1 hi
  rw [length_CRLFCRLF] at hle
  refine ⟨not_le.1 fun hlt => ?_, hle⟩
  have : indexOf CRLFCRLF ((buf ++ d).take buf.length) = some i :=
    (Lib.indexOf_take CRLFCRLF_ne_nil).2 ⟨hi, hlt⟩
  rw [List.take_left, hbuf] at this
  cases this

/-- **The passes find the header wherever it is cut.**  The buffer ends with the
receive that completes it, or is full. -/
theorem recvHeadersLoop_found (h : Receiving buf conn scans)
    (hfuel : HTTP_MAX_BUFFER_SIZE - buf.length < fuel) {i : ℕ}
    (hi : indexOf CRLFCRLF ((buf ++ delivered conn.handle.incoming).take HTTP_MAX_BUFFER_SIZE) =
      some i) :
    ∃ scans' : List Scan, (∀ c ∈ scans', 0 ≤ c.len) ∧
      recvHeadersLoop fuel (receiving buf) conn scans =
        .ok ⟨(i + 4 : ℕ),
          withHeader ((buf ++ delivered conn.handle.incoming).take
            (min (buf.length + reach (i + 4 - buf.length) conn.handle.incoming)
              HTTP_MAX_BUFFER_SIZE)) (i + 4),
          conn.after (min (buf.length + reach (i + 4 - buf.length) conn.handle.incoming)
              HTTP_MAX_BUFFER_SIZE - buf.length), scans'⟩ := by
  induction fuel generalizing buf conn scans with
  | zero => omega
  | succ fuel ih =>
    obtain ⟨hlt, hile⟩ := lt_of_indexOf_take h.unfound hi
    have hd : delivered conn.handle.incoming ≠ [] := by
      intro hnil
      rw [hnil, List.append_nil, List.take_of_length_le h.le, h.unfound] at hi
      cases hi
    obtain ⟨data, hrecv, hpos, hfirst, hle, hdata, hwithin, hbeyond⟩ :=
      exists_pass h (by omega) hd
    obtain ⟨c, hc, hpass⟩ := recvHeadersLoop_pass fuel h hrecv hpos hfirst hle
    have hsame := append_delivered_after buf hdata
    have hlen : (buf ++ data).length = buf.length + data.length := List.length_append
    rw [hpass]
    cases hj : indexOf CRLFCRLF (buf ++ data) with
    | some j =>
      have hij : i = j := by
        have htake : (buf ++ delivered conn.handle.incoming).take (buf ++ data).length =
            buf ++ data := by rw [← hsame, List.take_left]
        rw [← htake] at hj
        exact Lib.indexOf_take_inj CRLFCRLF_ne_nil hi hj
      subst hij
      have hjle := Lib.indexOf_le CRLFCRLF_ne_nil hj
      rw [length_CRLFCRLF] at hjle
      rw [hwithin (i + 4 - buf.length) (by omega), ← hsame, ← hlen, List.take_left]
      refine ⟨scans ++ [c], nonneg_concat h.scans hc, ?_⟩
      simp only [hlen, Nat.add_sub_cancel_left]
      rfl
    | none =>
      have hnext := h.next { conn.handle with
        incoming := after data.length conn.handle.incoming } hpos hfirst hle hc hj
      rw [← hsame] at hi
      obtain ⟨hlt', -⟩ := lt_of_indexOf_take hj hi
      obtain ⟨scans', hnonneg, hloop⟩ := ih hnext (by omega) hi
      refine ⟨scans', hnonneg, ?_⟩
      have hreach := hbeyond (i + 4 - buf.length) (by omega) (by omega)
      have hsub : i + 4 - buf.length - data.length = i + 4 - (buf ++ data).length := by omega
      rw [hsub] at hreach
      have hsum : (buf ++ data).length + reach (i + 4 - (buf ++ data).length)
          (after data.length conn.handle.incoming) =
          buf.length + reach (i + 4 - buf.length) conn.handle.incoming := by omega
      simp only [hloop, hsame, hsum]
      rw [HttpConnection.after, HttpConnection.after]
      simp only
      rw [Lib.after_after (length_le_of_eq_take hdata)]
      congr 6
      omega

/-- **Without a CRLFCRLF in the buffer there is no header**: the passes end when
the stream does or when the buffer is full. -/
theorem recvHeadersLoop_notFound (h : Receiving buf conn scans)
    (hfuel : HTTP_MAX_BUFFER_SIZE - buf.length < fuel)
    (hi : indexOf CRLFCRLF ((buf ++ delivered conn.handle.incoming).take HTTP_MAX_BUFFER_SIZE) =
      none) :
    ∃ r, recvHeadersLoop fuel (receiving buf) conn scans = .ok r ∧ r.ret = -1 ∧
      r.ct.header = httpContentNew.header := by
  induction fuel generalizing buf conn scans with
  | zero => omega
  | succ fuel ih =>
    by_cases hstop : buf.length < HTTP_MAX_BUFFER_SIZE ∧ delivered conn.handle.incoming ≠ []
    · obtain ⟨data, hrecv, hpos, hfirst, hle, hdata, -, -⟩ := exists_pass h hstop.1 hstop.2
      obtain ⟨c, hc, hpass⟩ := recvHeadersLoop_pass fuel h hrecv hpos hfirst hle
      have hsame := append_delivered_after buf hdata
      have hlen : (buf ++ data).length = buf.length + data.length := List.length_append
      have hj : indexOf CRLFCRLF (buf ++ data) = none := by
        cases hj : indexOf CRLFCRLF (buf ++ data) with
        | none => rfl
        | some j =>
          have hfull : (buf ++ data) ++ (delivered (after data.length
              conn.handle.incoming)).take (HTTP_MAX_BUFFER_SIZE - (buf ++ data).length) =
              (buf ++ delivered conn.handle.incoming).take HTTP_MAX_BUFFER_SIZE := by
            rw [← hsame, List.take_append, List.take_of_length_le hle]
          rw [← hfull, Lib.indexOf_append CRLFCRLF_ne_nil hj] at hi
          cases hi
      have hnext := h.next { conn.handle with
        incoming := after data.length conn.handle.incoming } hpos hfirst hle hc hj
      rw [← hsame] at hi
      rw [hpass]
      simp only [hj]
      exact ih hnext (by omega) hi
    · have hrecv : ∃ handle, socketRecv conn.handle (HTTP_MAX_BUFFER_SIZE - buf.length) =
          ([], handle) := by
        by_cases hd : delivered conn.handle.incoming = []
        · exact socketRecv_delivered_nil hd
        · have hfull : HTTP_MAX_BUFFER_SIZE - buf.length = 0 := by
            have : ¬buf.length < HTTP_MAX_BUFFER_SIZE := fun hlt => hstop ⟨hlt, hd⟩
            omega
          rw [hfull, socketRecv]
          cases conn.handle.incoming with
          | nil => exact ⟨_, rfl⟩
          | cons c cs => exact ⟨_, by rw [Lib.pull, List.take_zero]⟩
      obtain ⟨handle, hrecv⟩ := hrecv
      exact ⟨_, recvHeadersLoop_stop hrecv, rfl, rfl⟩

end Passes

/-- The passes leave the dictionary alone: it is filled by the parser later. -/
theorem recvHeadersLoop_dict {fuel : ℕ} {ct : HttpContent} {conn : HttpConnection}
    {scans : List Scan} {r : RecvHeaders} (h : recvHeadersLoop fuel ct conn scans = .ok r) :
    r.ct.dict = ct.dict := by
  induction fuel generalizing ct conn scans with
  | zero => cases h
  | succ fuel ih =>
    rw [recvHeadersLoop] at h
    simp only at h
    split at h
    · rw [← Except.ok.inj h]
    · split at h
      · cases h
      · have hdict := ih h
        exact hdict
      · rw [← Except.ok.inj h]

/-! ### The call -/

section Call

variable {conn : HttpConnection}

/-- A call on a new content is the loop on an empty buffer; every pass but the
last gets a byte, so there are at most as many as the buffer has. -/
theorem httpRecvHeaders_eq : httpRecvHeaders conn httpContentNew =
    recvHeadersLoop (HTTP_MAX_BUFFER_SIZE + 1) (receiving []) conn [] := rfl

/-- Before the first pass nothing is received and nothing scanned. -/
theorem receiving_init (h : FirstChunkOk conn.handle.incoming) : Receiving [] conn [] where
  unfound := by decide
  le := Nat.zero_le _
  started := .inl rfl
  first := fun _ => h
  scans := fun _ hc => absurd hc List.not_mem_nil

/-- **The header is found wherever the stream is cut**, if the first receive is
not shorter than three bytes.  The invariant is that no CRLFCRLF is in what was
received before, so the first one is found by the pass that brings its last
byte. -/
theorem httpRecvHeaders_found (h : FirstChunkOk conn.handle.incoming) {i : ℕ}
    (hi : indexOf CRLFCRLF ((delivered conn.handle.incoming).take HTTP_MAX_BUFFER_SIZE) = some i) :
    ∃ scans : List Scan, (∀ c ∈ scans, 0 ≤ c.len) ∧
      httpRecvHeaders conn httpContentNew = .ok ⟨(i + 4 : ℕ),
        withHeader ((delivered conn.handle.incoming).take
          (min (reach (i + 4) conn.handle.incoming) HTTP_MAX_BUFFER_SIZE)) (i + 4),
        conn.after (min (reach (i + 4) conn.handle.incoming) HTTP_MAX_BUFFER_SIZE), scans⟩ := by
  have hfound := recvHeadersLoop_found (receiving_init h)
    (show HTTP_MAX_BUFFER_SIZE - 0 < HTTP_MAX_BUFFER_SIZE + 1 by omega) hi
  rw [httpRecvHeaders_eq]
  simpa using hfound

/-- No header is found that has not arrived in the first bytes of the stream:
the buffer is full or the stream is over, and the next receive gets nothing. -/
theorem httpRecvHeaders_notFound (h : FirstChunkOk conn.handle.incoming)
    (hi : indexOf CRLFCRLF ((delivered conn.handle.incoming).take HTTP_MAX_BUFFER_SIZE) = none) :
    ∃ r, httpRecvHeaders conn httpContentNew = .ok r ∧ r.ret = -1 ∧
      r.ct.header = httpContentNew.header :=
  recvHeadersLoop_notFound (receiving_init h)
    (show HTTP_MAX_BUFFER_SIZE - 0 < HTTP_MAX_BUFFER_SIZE + 1 by omega) hi

/-- **A first receive of one or two bytes is scanned beyond its end.**  The
length of the scan is negative, `while (len--)` goes on through it, and no byte
that was received starts a CRLFCRLF. -/
theorem httpRecvHeaders_fault (h : ¬FirstChunkOk conn.handle.incoming) :
    httpRecvHeaders conn httpContentNew = .error .uninitialised := by
  obtain ⟨c, hcs, hne, hlt⟩ : ∃ c, conn.handle.incoming.head? = some c ∧ c ≠ [] ∧ c.length < 3 := by
    simpa [FirstChunkOk] using h
  obtain ⟨cs, hcs⟩ : ∃ cs, conn.handle.incoming = c :: cs := ⟨_, List.eq_cons_of_mem_head? hcs⟩
  have hpos := List.length_pos_iff.2 hne
  have htake : c.take HTTP_MAX_BUFFER_SIZE = c :=
    List.take_of_length_le (by rw [show HTTP_MAX_BUFFER_SIZE = 10240 from rfl]; omega)
  have hrecv := socketRecv_cons (n := HTTP_MAX_BUFFER_SIZE) hne hcs
  rw [htake] at hrecv
  have hlen : toInt32 ((c.length : ℤ) - 3) = c.length - 3 :=
    Lib.toInt32_of_bounds (by omega) (by omega)
  have hno : ∀ i, ¬CRLFCRLF <+: c.drop i := by
    intro i hi
    have := Lib.add_length_le_of_prefix CRLFCRLF_ne_nil hi
    rw [length_CRLFCRLF] at this
    omega
  have hscan : httpFindCrlf c 0 (c.length - 3) = .error .uninitialised :=
    findCrlfLoop_fault (Nat.zero_le _) (by omega) hno
  rw [httpRecvHeaders, recvHeadersLoop]
  simp only [httpContentNew, List.length_nil, Nat.sub_zero, hrecv, List.nil_append, zero_add,
    lt_irrefl, if_false, Nat.cast_zero, sub_zero, hlen, hscan, not_le.2 hpos]

/-- The call returns the offset behind the first CRLFCRLF of the stream, at `i`,
`header` is the stream up to there, `body` what was received after it, and no
scan has a negative length or leaves the received bytes. -/
def HeadersExact (conn : HttpConnection) (i : ℕ) : Prop :=
  ∃ r : RecvHeaders, httpRecvHeaders conn httpContentNew = .ok r ∧
    r.ret = i + 4 ∧
    r.ct.load r.ct.header = .ok (conn.handle.incoming.flatten.take (i + 4)) ∧
    r.ct.load r.ct.body = .ok (r.ct.headerbuf.buf.drop (i + 4)) ∧
    r.ct.body.size = (r.ct.headerbuf.buf.drop (i + 4)).length ∧
    r.ct.headerbuf.buf ++ r.conn.handle.incoming.flatten = conn.handle.incoming.flatten ∧
    ∀ c ∈ r.scans, 0 ≤ c.len

/-- The header reads what was received up to its end.  The reference starts at
0, and its size is where CRLFCRLF ends. -/
theorem load_header_withHeader {buf : Bytes} {h : ℕ} (hle : h ≤ buf.length) :
    (withHeader buf h).load (withHeader buf h).header = .ok (buf.take h) := by
  rw [HttpContent.load]
  by_cases h₀ : h = 0
  · subst h₀
    simp [withHeader]
  · rw [if_neg (by simp only [withHeader]; omega)]
    have hsize : (withHeader buf h).header.size.toNat = h := Int.toNat_natCast h
    have hbuf : (withHeader buf h).headerbuf.buf = buf := rfl
    rw [show (withHeader buf h).header.ptr = .headerbuf 0 from rfl, hsize]
    simp only
    rw [HttpBuffer.load_of_le (by rw [hbuf]; omega), hbuf, List.drop_zero]

/-- The body reads what was received behind the header, as `start` is set there. -/
theorem load_body_withHeader {buf : Bytes} {h : ℕ} (hle : h ≤ buf.length) :
    (withHeader buf h).load (withHeader buf h).body = .ok (buf.drop h) := by
  rw [HttpContent.load]
  by_cases h₀ : buf.length = h
  · rw [if_pos (by simp only [withHeader]; omega), List.drop_eq_nil_of_le (by omega)]
  · have hsize : ((buf.length : ℤ) - h).toNat = buf.length - h := by omega
    rw [if_neg (by simp only [withHeader]; omega)]
    simp only [withHeader, if_neg h₀, hsize]
    rw [HttpBuffer.load_of_le (by simp only [receiving]; omega)]
    simp only [receiving]
    rw [List.take_of_length_le (by rw [List.length_drop])]

/-- **`http_recv_headers` is right exactly when its first receive gets at least
three bytes**, for every stream with CRLFCRLF in its first bytes and every
division into chunks. -/
theorem httpRecvHeaders_exact_iff {i : ℕ} (hne : ∀ c ∈ conn.handle.incoming, c ≠ [])
    (hi : indexOf CRLFCRLF (conn.handle.incoming.flatten.take HTTP_MAX_BUFFER_SIZE) = some i) :
    HeadersExact conn i ↔ ∀ c, conn.handle.incoming.head? = some c → 3 ≤ c.length := by
  constructor
  · rintro ⟨r, hr, -⟩ c hc
    have hok : FirstChunkOk conn.handle.incoming := by
      by_contra hbad
      rw [httpRecvHeaders_fault hbad] at hr
      cases hr
    exact (hok c hc).resolve_left (hne c (List.mem_of_mem_head? hc))
  · intro hfirst
    have hd := Lib.delivered_eq_flatten hne
    rw [← hd] at hi
    obtain ⟨scans, hscans, hr⟩ := httpRecvHeaders_found (fun c hc => .inr (hfirst c hc)) hi
    obtain ⟨hstream, hile⟩ := (Lib.indexOf_take CRLFCRLF_ne_nil).1 hi
    have hlen := Lib.indexOf_le CRLFCRLF_ne_nil hstream
    rw [length_CRLFCRLF] at hile hlen
    have hreach := Lib.le_reach hlen
    have hreach' := Lib.reach_le (by omega) hlen
    obtain ⟨n, hn⟩ : ∃ n, n = min (reach (i + 4) conn.handle.incoming) HTTP_MAX_BUFFER_SIZE :=
      ⟨_, rfl⟩
    rw [← hn] at hr
    have htake : ((delivered conn.handle.incoming).take n).length = n := by
      rw [List.length_take]
      omega
    refine ⟨_, hr, by push_cast; rfl, ?_, ?_, ?_, ?_, hscans⟩
    · rw [load_header_withHeader (by omega), List.take_take, min_eq_left (by omega), hd]
    · exact load_body_withHeader (by omega)
    · show (((delivered conn.handle.incoming).take n).length - (i + 4 : ℕ) : ℤ) = _
      rw [List.length_drop]
      simp only [withHeader, receiving]
      omega
    · exact Lib.take_append_flatten_after (by omega)

/-- A connection whose receives deliver these chunks. -/
def connectionOf (incoming : List Bytes) : HttpConnection := ⟨[], 0, ⟨incoming, [], []⟩⟩

/-- The hypotheses are satisfiable: the terminator comes in three parts. -/
theorem httpRecvHeaders_exact_split :
    HeadersExact (connectionOf [ascii "GET / HTTP/1.1\r", ascii "\n\r", ascii "\nabc"]) 14 :=
  (httpRecvHeaders_exact_iff (by decide) (by decide)).2 fun c hc => by
    obtain rfl : ascii "GET / HTTP/1.1\r" = c := Option.some.inj hc
    decide

/-- A stream whose first receive gets one byte: the header is there and is not
found. -/
theorem httpRecvHeaders_short_first :
    (∀ c ∈ (connectionOf [ascii "G", ascii "ET / HTTP/1.1\r\n\r\n"]).handle.incoming, c ≠ []) ∧
      indexOf CRLFCRLF ((connectionOf [ascii "G",
        ascii "ET / HTTP/1.1\r\n\r\n"]).handle.incoming.flatten.take HTTP_MAX_BUFFER_SIZE) =
        some 14 ∧
      ¬HeadersExact (connectionOf [ascii "G", ascii "ET / HTTP/1.1\r\n\r\n"]) 14 := by
  refine ⟨by decide, by decide, ?_⟩
  rintro ⟨r, hr, -⟩
  rw [httpRecvHeaders_fault fun h => absurd (h _ rfl) (by decide)] at hr
  cases hr

end Call

end Http
end Dukserver
