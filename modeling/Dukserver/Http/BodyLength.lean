/-
# The length of the body

`http_recv_body` in `libhttpd/http_sendrecv.c` reads `Content-Length` with `atoi`, so a
number goes through a `long` and an `int` before it is compared with anything.  From
`2 ^ 31` on the length that is used is not the number any more, and a length that is not
positive counts as no length at all: then the body is whatever came with the header.

The body is the next bytes of the stream, as many as the number says, if this fits an
`int`, is not zero and that many bytes arrive (`takesLength_iff`).
-/

import Dukserver.Http.RecvBody

namespace Dukserver
namespace Http

open Lib (Bytes ascii atoi delivered Numeral)

/-- The bytes of the body: those of the temporary file, or those behind
`ct->body`. -/
def RecvBody.body (r : RecvBody) : Except Fault Bytes :=
  match r.tmpfile with
  | some data => .ok data
  | none => r.ct.load r.ct.body

/-- The body is exactly the next `n` bytes of what is left over from the header
and of what the connection delivers, and no other byte was taken from the
connection. -/
structure BodyExact (conn : HttpConnection) (leftover : Bytes) (n : ℕ) (r : RecvBody) :
    Prop where
  size : r.ct.body.size = n
  bytes : r.body = .ok ((leftover ++ delivered conn.handle.incoming).take n)
  arrived : n ≤ (leftover ++ delivered conn.handle.incoming).length
  left : r.conn.handle.incoming.flatten =
    conn.handle.incoming.flatten.drop (n - leftover.length)

/-- `http_recv_body` takes `n` bytes as the body or reports an error. -/
def TakesLength (env : RecvEnv) (conn : HttpConnection) (buf : Bytes) (h : ℕ) (dict : HttpMap)
    (n : ℕ) : Prop :=
  ∃ r, httpRecvBody env conn (parsed buf h dict) = .ok r ∧
    (r.ret < 0 ∨ BodyExact conn (buf.drop h) n r)

section

variable {env : RecvEnv} {conn : HttpConnection} {buf v : Bytes} {h m n : ℕ} {dict : HttpMap}

/-- The length is taken if what is received says so, as a receive has one
outcome. -/
theorem takesLength_of_eq {r : RecvBody}
    (hr : httpRecvBody env conn (parsed buf h dict) = .ok r) :
    TakesLength env conn buf h dict n ↔ r.ret < 0 ∨ BodyExact conn (buf.drop h) n r := by
  refine ⟨?_, fun hr' => ⟨r, hr, hr'⟩⟩
  rintro ⟨r', hr', hexact⟩
  obtain rfl := Except.ok.inj (hr.symm.trans hr')
  exact hexact

/-- Without a positive length the body is what came with the header, so the
number is right only by chance. -/
theorem takesLength_of_nonpos (hv : httpMapGet dict (ascii "Content-Length") = some v)
    (hh : h ≤ buf.length) (hw : atoi v ≤ 0) :
    TakesLength env conn buf h dict n ↔ (buf.drop h).length = n := by
  have hnone : ∀ v', httpMapGet dict (ascii "Content-Length") = some v' → atoi v' ≤ 0 := by
    rintro v' hv'
    obtain rfl := Option.some.inj (hv.symm.trans hv')
    exact hw
  rw [takesLength_of_eq (httpRecvBody_of_none env conn hnone)]
  constructor
  · rintro (hret | hexact)
    · exact absurd hret (lt_irrefl 0)
    · have hsize := hexact.size
      rw [size_body_parsed dict hh] at hsize
      exact Int.ofNat.inj hsize
  · rintro rfl
    refine .inr ⟨size_body_parsed dict hh, ?_, ?_, ?_⟩
    · rw [List.take_left']
      · exact load_body_parsed hh
      · rfl
    · rw [List.length_append]
      omega
    · rw [Nat.sub_self, List.drop_zero]

/-- A body that came with the header is cut to the length that `atoi` gives,
which is the number or is not. -/
theorem takesLength_of_le (hv : httpMapGet dict (ascii "Content-Length") = some v)
    (hm : atoi v = m) (hpos : 0 < m) (hle : h + m ≤ buf.length) :
    TakesLength env conn buf h dict n ↔ m = n := by
  have hlen : (buf.drop h).length = buf.length - h := List.length_drop
  rw [takesLength_of_eq (httpRecvBody_of_le env conn hv hm hpos hle)]
  constructor
  · rintro (hret | hexact)
    · exact absurd hret (lt_irrefl 0)
    · exact Int.ofNat.inj hexact.size
  · rintro rfl
    refine .inr ⟨rfl, ?_, ?_, ?_⟩
    · rw [List.take_append_of_le_length (by omega)]
      exact load_body_take dict hpos hle
    · rw [List.length_append]
      omega
    · rw [show m - (buf.drop h).length = 0 by omega, List.drop_zero]

/-- What is missing of a body is received, in the body buffer or in a file, as
far as it arrives. -/
theorem takesLength_of_lt (hv : httpMapGet dict (ascii "Content-Length") = some v)
    (hm : atoi v = m) (hh : h ≤ buf.length) (hlt : buf.length < h + m)
    (hopen : m ≤ HTTP_MAX_BUFFER_SIZE ∨ env.fopenOk = true) :
    TakesLength env conn buf h dict n ↔
      m = n ∧ n ≤ (buf.drop h ++ delivered conn.handle.incoming).length := by
  have hlen : (buf.drop h).length = buf.length - h := List.length_drop
  have hmissing : h + m - buf.length = m - (buf.drop h).length := by omega
  -- both ways leave what is left over and what was received, and the connection behind that
  suffices hr : ∃ r, httpRecvBody env conn (parsed buf h dict) = .ok r ∧ 0 ≤ r.ret ∧
      r.ct.body.size = m ∧ r.conn = conn.after (m - (buf.drop h).length) ∧
      (m ≤ (buf.drop h ++ delivered conn.handle.incoming).length →
        r.body = .ok ((buf.drop h ++ delivered conn.handle.incoming).take m)) by
    obtain ⟨r, hr, hret, hsize, hconn, hbody⟩ := hr
    rw [takesLength_of_eq hr]
    constructor
    · rintro (hneg | hexact)
      · omega
      · exact ⟨Int.ofNat.inj (hsize.symm.trans hexact.size), hexact.arrived⟩
    · rintro ⟨rfl, harrived⟩
      refine .inr ⟨hsize, hbody harrived, harrived, ?_⟩
      rw [List.length_append] at harrived
      rw [hconn, HttpConnection.after, Lib.flatten_after, min_eq_left (by omega)]
  have htake : buf.drop h ++ (delivered conn.handle.incoming).take (m - (buf.drop h).length) =
      (buf.drop h ++ delivered conn.handle.incoming).take m := by
    rw [List.take_append, List.take_of_length_le (show (buf.drop h).length ≤ m by omega)]
  by_cases hmax : m ≤ HTTP_MAX_BUFFER_SIZE
  · obtain ⟨data, hdata, hrecv⟩ := httpRecvBody_of_lt env conn hv hm hh hlt hmax
    rw [hmissing] at hdata hrecv
    rw [hdata, htake] at hrecv
    refine ⟨_, hrecv, Int.natCast_nonneg _, rfl, rfl, fun harrived => ?_⟩
    rw [RecvBody.body]
    simp only
    rw [HttpContent.load_bodybuf rfl (by omega), if_pos (by rw [List.length_take]; omega),
      List.take_take, min_self]
  · obtain ⟨data, hdata, hrecv⟩ :=
      httpRecvBody_file env conn hv hm hh hlt (not_le.1 hmax) (hopen.resolve_left hmax)
    rw [hmissing] at hdata hrecv
    rw [hdata, htake] at hrecv
    exact ⟨_, hrecv, Int.natCast_nonneg _, rfl, rfl, fun _ => rfl⟩

/-- A file that cannot be opened is reported. -/
theorem takesLength_of_no_file (hv : httpMapGet dict (ascii "Content-Length") = some v)
    (hm : atoi v = m) (hh : h ≤ buf.length) (hlt : buf.length < h + m)
    (hgt : HTTP_MAX_BUFFER_SIZE < m) (hopen : env.fopenOk = false) :
    TakesLength env conn buf h dict n :=
  ⟨_, httpRecvBody_no_file env conn hv hm hh hlt hgt hopen, .inl (Int.negSucc_lt_zero 0)⟩

/-- **The body is exactly as long as the number in `Content-Length` says**, or
an error is reported, exactly if the number fits an `int`, is not zero and that
many bytes arrive, or the body goes to a file that cannot be opened, or the
number does not count as a length and what came with the header happens to have
it. -/
theorem takesLength_iff (hv : httpMapGet dict (ascii "Content-Length") = some v)
    (hn : Numeral v n) (hh : h ≤ buf.length) :
    TakesLength env conn buf h dict n ↔
      (0 < n ∧ n < 2 ^ 31 ∧ n ≤ (buf.drop h ++ delivered conn.handle.incoming).length) ∨
      (env.fopenOk = false ∧ ((buf.drop h).length : ℤ) < atoi v ∧
        (HTTP_MAX_BUFFER_SIZE : ℤ) < atoi v) ∨
      (atoi v ≤ 0 ∧ (buf.drop h).length = n) := by
  have hlen : (buf.drop h).length = buf.length - h := List.length_drop
  have hfits := Lib.atoi_eq_iff hn
  have hle := Lib.atoi_le hn
  by_cases hw : atoi v ≤ 0
  · rw [takesLength_of_nonpos hv hh hw]
    omega
  · obtain ⟨m, hm⟩ := Int.eq_ofNat_of_zero_le (not_le.1 hw).le
    rw [hm] at hfits hle hw ⊢
    rw [Nat.cast_inj] at hfits
    by_cases hin : h + m ≤ buf.length
    · rw [takesLength_of_le hv hm (by omega) hin, List.length_append]
      omega
    · by_cases hopen : m ≤ HTTP_MAX_BUFFER_SIZE ∨ env.fopenOk = true
      · rw [takesLength_of_lt hv hm hh (by omega) hopen]
        have hfile : ¬(env.fopenOk = false ∧ ((buf.drop h).length : ℤ) < m ∧
            (HTTP_MAX_BUFFER_SIZE : ℤ) < m) := by
          rintro ⟨hfalse, -, hgt⟩
          rcases hopen with hsmall | htrue
          · omega
          · exact Bool.false_ne_true (hfalse.symm.trans htrue)
        simp only [hfile, false_or]
        omega
      · rw [not_or, Bool.not_eq_true, not_le] at hopen
        refine iff_of_true (takesLength_of_no_file hv hm hh (by omega) hopen.1 hopen.2) ?_
        exact .inr (.inl ⟨hopen.2, by omega, by omega⟩)

/-- Five bytes that come in two receives. -/
theorem takesLength_split :
    TakesLength ⟨[], true, []⟩ (connectionOf [ascii "b", ascii "cde"]) (ascii "\r\n\r\na") 4
      (httpMapSet (httpMapNew 10) (ascii "Content-Length") (some (ascii "5"))) 5 :=
  (takesLength_iff (v := ascii "5") (by decide)
    ⟨by decide, List.all_eq_true.1 (by decide), by decide⟩ (by decide)).2 (.inl (by decide))

/-- A length of `2 ^ 32 + 1` takes one byte.  `atoi` keeps the low 32 bits,
which are 1. -/
theorem takesLength_wrapped :
    Numeral (ascii "4294967297") 4294967297 ∧
      ¬TakesLength ⟨[], true, []⟩ (connectionOf [ascii "abc"]) (ascii "\r\n\r\n") 4
        (httpMapSet (httpMapNew 10) (ascii "Content-Length") (some (ascii "4294967297")))
        4294967297 := by
  have hv : httpMapGet (httpMapSet (httpMapNew 10) (ascii "Content-Length")
      (some (ascii "4294967297"))) (ascii "Content-Length") = some (ascii "4294967297") := by
    decide
  have hm : atoi (ascii "4294967297") = (1 : ℕ) := by decide +kernel
  refine ⟨⟨by decide, List.all_eq_true.1 (by decide), by decide +kernel⟩, fun htakes => ?_⟩
  rw [takesLength_of_lt hv hm (by decide) (by decide) (.inr rfl)] at htakes
  have hone := htakes.1
  omega

end

end Http
end Dukserver
