/-
# File objects

`duktape/dukpylib.c`, `_fs_open` (lines 1184-1246) and the methods of the object that it makes
(lines 607-722), built without `DUKLIB_DEFAULT_SYSENCODING`.  The object has a pointer to the
`FILE`, and the methods look at it only to see that it is not `NULL`; `close` leaves it.

The machine `fileObjects` has a script that uses one file object.  The C library calls are the
functions of `Stream`; after `fclose` there is no stream, and to use it is a fault.
-/

import Dukserver.Http.Common
import Dukserver.Lib.Machine
import Dukserver.Lib.Outcome
import Dukserver.Wsgi.Duk
import Mathlib.Data.List.SplitLengths

namespace Dukserver
namespace Pylib

open Http (Fault)
open Lib (Bytes Machine ascii cstr)
open Wsgi (DukError DukNumber DukValue pushInt)

/-! ### The C library -/

/-- A `FILE` that is open: what is in the file, and the position in it. -/
structure Stream where
  content : Bytes
  pos : ℕ
  readable : Bool
  writable : Bool
  appends : Bool
  pos_le : pos ≤ content.length

/-- `fopen(fn, "rb")` of a file. -/
def Stream.ofContent (content : Bytes) : Stream :=
  ⟨content, 0, true, false, false, Nat.zero_le _⟩

/-- `fread` of `len` bytes, and the stream after it. -/
def Stream.fread (f : Stream) (len : ℕ) : Bytes × Stream :=
  if f.readable then
    ((f.content.drop f.pos).take len,
      { f with pos := min (f.pos + len) f.content.length, pos_le := Nat.min_le_right _ _ })
  else ([], f)

/-- `fwrite` of `buf`, where there is room for `room` bytes on the device; it
returns how many bytes it has written. -/
def Stream.fwrite (f : Stream) (buf : Bytes) (room : ℕ) : ℕ × Stream :=
  if f.writable then
    let start := if f.appends then f.content.length else f.pos
    let buf := buf.take room
    (buf.length,
      { f with
        content := f.content.take start ++ buf ++ f.content.drop (start + buf.length)
        pos := (f.content.take start ++ buf).length
        pos_le := (List.prefix_append ..).length_le })
  else (0, f)

/-! ### The object and its methods -/

/-- A file object.  `__handler__` is a pointer to `file`, or `NULL`; `file` is
gone when `fclose` was applied to it. -/
structure FileObject where
  handler : Bool
  file : Option Stream

/-- What `_fs_open` takes from its arguments. -/
def fsOpenArgs : List DukValue → Except DukError (Bytes × Bytes)
  | [.string fn, .string mode] => .ok (cstr fn, cstr mode)
  | [.string _, _] => .error ⟨.typeError, "file mode must be string"⟩
  | [.string fn] => .ok (cstr fn, ascii "r")
  | [_, _] => .error ⟨.typeError, "file name must be string"⟩
  | [_] => .error ⟨.typeError, "file name must be string"⟩
  | _ => .error ⟨.typeError, "missing parameters"⟩

/-- `_fs_open`, where `fopen` answers with a stream, or `NULL`. -/
def fsOpen (args : List DukValue) (fopen : Bytes → Bytes → Option Stream) :
    Except DukError FileObject := do
  let (fn, mode) ← fsOpenArgs args
  match fopen fn mode with
  | none => .error ⟨.internalError, "fopen error."⟩
  | some f => .ok ⟨true, some f⟩

/-- What a method returns, and the object after it. -/
structure FileOutcome where
  result : Except DukError DukValue
  obj : FileObject

def nullFp : DukError := ⟨.internalError, "fp of fclose(fp) is NULL!"⟩

/-- The check that all methods make. -/
def checkFp (o : FileObject) (rest : Except Fault FileOutcome) : Except Fault FileOutcome :=
  if !o.handler then .ok ⟨.error nullFp, o⟩ else rest

/-- The part of a method that uses the `FILE`. -/
def useFp (o : FileObject) (use : Stream → FileOutcome) : Except Fault FileOutcome :=
  match o.file with
  | none => .error .useAfterFree
  | some f => .ok (use f)

/-- `_fileobj_close`. -/
def fileobjClose (o : FileObject) : Except Fault FileOutcome :=
  checkFp o <| useFp o fun _ => ⟨.ok .undefined, { o with file := none }⟩

/-- The `len` that `_fileobj_read` takes from its arguments. -/
def readLen : List DukValue → Except DukError ℕ
  -- what would set it to the size is behind the error that refuses other values
  | [.number _] => .ok 0
  | [_] => .error ⟨.typeError, "size must be interger"⟩
  | _ => .ok 0

/-- `_fileobj_read`. -/
def fileobjRead (o : FileObject) (args : List DukValue) : Except Fault FileOutcome :=
  match readLen args with
  | .error e => .ok ⟨.error e, o⟩
  | .ok len => checkFp o <| useFp o fun f =>
    let fsize := f.content.length
    let len := if len = 0 ∨ len > fsize - f.pos then fsize - f.pos else len
    let (rawbuf, f) := f.fread len
    ⟨.ok (.buffer rawbuf), { o with file := some f }⟩

/-- The buffer that `_fileobj_write` takes from its arguments. -/
def writeBuffer : List DukValue → Except DukError Bytes
  | [.buffer buf] => .ok buf
  | [.string buf] => .ok buf
  | [_] => .error ⟨.typeError, "just buffer or string accept"⟩
  | _ => .error ⟨.typeError, "missing buffer or string to write"⟩

/-- `_fileobj_write`. -/
def fileobjWrite (o : FileObject) (args : List DukValue) (room : ℕ) : Except Fault FileOutcome :=
  match writeBuffer args with
  | .error e => .ok ⟨.error e, o⟩
  | .ok buf => checkFp o <|
    if buf.length ≤ 0 then .ok ⟨.error ⟨.internalError, "invalid buffer or string!"⟩, o⟩
    else useFp o fun f =>
      let (wrote, f) := f.fwrite buf room
      ⟨.ok (pushInt ((wrote : ℤ).bmod (2 ^ 32))), { o with file := some f }⟩

/-- What a script calls on a file object. -/
inductive FileCall
  | close
  | read (args : List DukValue)
  | write (args : List DukValue) (room : ℕ)

def fileCall (o : FileObject) : FileCall → Except Fault FileOutcome
  | .close => fileobjClose o
  | .read args => fileobjRead o args
  | .write args room => fileobjWrite o args room

/-! ### Calls behind `close` -/

def FileObject.next (o : FileObject) (l : FileCall) : FileObject :=
  match fileCall o l with
  | .ok r => r.obj
  | .error _ => o

/-- A script that uses a file object. -/
def fileObjects : Machine FileObject FileCall := ⟨fun _ _ => True, FileObject.next⟩

/-- The call makes no use of a closed `FILE`, be it another `fclose`, and raises
an error if it is closed. -/
def Guarded (o : FileObject) (l : FileCall) : Prop :=
  ∃ r, fileCall o l = .ok r ∧ (o.file = none → ∃ e, r.result = .error e)

/-- The call comes to the C library if the object lets it: its own checks accept
the arguments. -/
def FileCall.Reaches : FileCall → Prop
  | .close => True
  | .read args => ∃ len, readLen args = .ok len
  | .write args _ => ∃ buf, writeBuffer args = .ok buf ∧ buf ≠ []

/-- An object that is open. -/
def FileObject.Opened (o : FileObject) : Prop := ∃ f, o = ⟨true, some f⟩

/-- An object behind `close`. -/
def FileObject.Closed (o : FileObject) : Prop := o = ⟨true, none⟩

section Close

variable {o t : FileObject} {f : Stream} {l : FileCall} {ls : List FileCall}
  {args : List DukValue} {fopen : Bytes → Bytes → Option Stream}

/-- What `_fs_open` makes is open. -/
theorem fsOpen_ok (h : fsOpen args fopen = .ok o) : o.Opened := by
  obtain ⟨⟨fn, mode⟩, -, h⟩ := Lib.bind_eq_ok.1 h
  rcases hfopen : fopen fn mode with - | f <;> simp only [hfopen] at h
  · cases h
  · exact ⟨f, (Except.ok.inj h).symm⟩

/-- **A call on an open object** closes it, or leaves it open, and is no fault:
the stream is there, whatever the arguments are. -/
theorem fileCall_open (f : Stream) (l : FileCall) : ∃ r, fileCall ⟨true, some f⟩ l = .ok r ∧
    ((l = .close ∧ r.obj = ⟨true, none⟩) ∨ (l ≠ .close ∧ ∃ f', r.obj = ⟨true, some f'⟩)) := by
  cases l with
  | close => exact ⟨_, rfl, .inl ⟨rfl, rfl⟩⟩
  | read args =>
    rw [fileCall, fileobjRead]
    rcases readLen args with e | len
    · exact ⟨_, rfl, .inr ⟨nofun, f, rfl⟩⟩
    · exact ⟨_, rfl, .inr ⟨nofun, _, rfl⟩⟩
  | write args room =>
    rw [fileCall, fileobjWrite]
    rcases writeBuffer args with e | buf
    · exact ⟨_, rfl, .inr ⟨nofun, f, rfl⟩⟩
    · by_cases hbuf : buf.length ≤ 0
      · refine ⟨_, if_pos hbuf, .inr ⟨nofun, f, rfl⟩⟩
      · refine ⟨_, if_neg hbuf, .inr ⟨nofun, _, rfl⟩⟩

/-- **A call on a closed object** uses the `FILE` again, or fails in its own
checks before it comes so far. -/
theorem fileCall_closed (l : FileCall) :
    (l.Reaches ∧ fileCall ⟨true, none⟩ l = .error .useAfterFree) ∨
      (¬l.Reaches ∧ ∃ e, fileCall ⟨true, none⟩ l = .ok ⟨.error e, ⟨true, none⟩⟩) := by
  cases l with
  | close => exact .inl ⟨trivial, rfl⟩
  | read args =>
    rw [fileCall, fileobjRead, FileCall.Reaches]
    rcases readLen args with e | len
    · refine .inr ⟨?_, e, rfl⟩
      rintro ⟨len, hlen⟩
      cases hlen
    · exact .inl ⟨⟨len, rfl⟩, rfl⟩
  | write args room =>
    rw [fileCall, fileobjWrite, FileCall.Reaches]
    rcases writeBuffer args with e | buf
    · refine .inr ⟨?_, e, rfl⟩
      rintro ⟨buf, hbuf, -⟩
      cases hbuf
    · rcases buf with - | ⟨b, buf⟩
      · refine .inr ⟨?_, _, rfl⟩
        rintro ⟨buf, hbuf, hne⟩
        exact hne (Except.ok.inj hbuf).symm
      · exact .inl ⟨⟨b :: buf, rfl, List.cons_ne_nil _ _⟩, rfl⟩

/-- As long as the object is open, all goes well.  The handler is there, and so
is the stream behind it. -/
theorem open_step (h : o.Opened) :
    Guarded o l ∧ (l = .close → (o.next l).Closed) ∧ (l ≠ .close → (o.next l).Opened) := by
  obtain ⟨f, rfl⟩ := h
  obtain ⟨r, hr, hobj⟩ := fileCall_open f l
  have hnext : FileObject.next ⟨true, some f⟩ l = r.obj := by
    simp only [FileObject.next, hr]
  refine ⟨⟨r, hr, nofun⟩, fun hclose => ?_, fun hother => ?_⟩ <;>
    rw [hnext]
  · exact (hobj.resolve_right fun hkept => hkept.1 hclose).2
  · exact (hobj.resolve_left fun hclosed => hother hclosed.1).2

/-- Afterwards the calls go wrong that their own checks let through.
`_fileobj_close` leaves `__handler__` in place, so what is found there is the
closed file. -/
theorem closed_step (h : o.Closed) : (o.next l).Closed ∧ (Guarded o l ↔ ¬l.Reaches) := by
  cases h
  rcases fileCall_closed l with ⟨hreach, hfault⟩ | ⟨hreach, e, herror⟩
  · refine ⟨?_, iff_of_false ?_ (not_not.2 hreach)⟩
    · simp only [FileObject.Closed, FileObject.next, hfault]
    rintro ⟨r, hr, -⟩
    cases hfault.symm.trans hr
  · exact ⟨by simp only [FileObject.Closed, FileObject.next, herror],
      iff_of_true ⟨_, herror, fun _ => ⟨e, rfl⟩⟩ hreach⟩

/-- **No call of a run uses the `FILE` behind `fclose` exactly if** each call
behind the first close fails in its own checks. -/
theorem guarded_iff (hopen : fsOpen args fopen = .ok o) (hrun : fileObjects.Run o ls t) :
    fileObjects.Along Guarded o ls ↔ ls.Pairwise fun m l => m = .close → ¬l.Reaches :=
  Machine.along_iff_pairwise (fun _ _ h _ => open_step h) (fun _ _ h _ => closed_step h)
    (fsOpen_ok hopen) hrun

/-- The hypotheses are satisfiable, for a file that is read and closed. -/
theorem guarded_iff_read :
    fileObjects.Along Guarded ⟨true, some (.ofContent (ascii "x"))⟩ [.read [], .close] ↔
      List.Pairwise (fun m l => m = .close → ¬FileCall.Reaches l) [.read [], .close] :=
  guarded_iff (show fsOpen [.string (ascii "f")] (fun _ _ => some (.ofContent (ascii "x"))) = .ok _
    from rfl) ⟨trivial, trivial, rfl⟩

/-- A file that is closed again, as a script does that handles errors. -/
theorem close_close :
    ∃ o, fsOpen [.string (ascii "f")] (fun _ _ => some (.ofContent [])) = .ok o ∧
      ¬fileObjects.Along Guarded o [.close, .close] := by
  refine ⟨_, rfl, ?_⟩
  rintro ⟨-, ⟨r, hr, -⟩, -⟩
  cases hr

end Close

/-! ### Reading in pieces -/

/-- The results of `f.read(n)` for one size after the other. -/
def fileReads : FileObject → List ℕ → Except Fault (List (Except DukError DukValue))
  | _, [] => .ok []
  | o, n :: sizes => do
    let r ← fileobjRead o [pushInt n]
    let results ← fileReads r.obj sizes
    return r.result :: results

/-- What reading in pieces should give: each result is what comes next, of at
most the size asked for; together they are a prefix of the file, and all of it
when a result is empty. -/
structure ReadsOn (content : Bytes) (sizes : List ℕ) (results : List Bytes) : Prop where
  pieces : results = sizes.splitLengths content
  isPrefix : results.flatten <+: content
  whole : [] ∈ results → results.flatten = content

/-- The stream at the end of its file. -/
def Stream.atEnd (f : Stream) : Stream := { f with pos := f.content.length, pos_le := le_rfl }

section Read

variable {f : Stream} {content : Bytes} {sizes : List ℕ} {n : ℕ}

/-- **A read with a size reads all that is left**: the size is looked at and not
used. -/
theorem fileobjRead_size (hreadable : f.readable = true) (x : DukNumber) :
    fileobjRead ⟨true, some f⟩ [.number x] =
      .ok ⟨.ok (.buffer (f.content.drop f.pos)), ⟨true, some f.atEnd⟩⟩ := by
  have hle := f.pos_le
  have hall : (f.content.drop f.pos).take (f.content.length - f.pos) = f.content.drop f.pos :=
    List.take_of_length_le (List.length_drop ..).le
  have hend : min (f.pos + (f.content.length - f.pos)) f.content.length = f.content.length := by
    omega
  simp only [fileobjRead, readLen, checkFp, useFp, Stream.fread, hreadable, hall, hend, true_or,
    if_true, Bool.not_true, Bool.false_eq_true, if_false, Stream.atEnd]

/-- So it is with the first of several reads, and the others begin at the end. -/
theorem fileReads_step (hreadable : f.readable = true) (n : ℕ) (sizes : List ℕ) :
    fileReads ⟨true, some f⟩ (n :: sizes) = do
      let results ← fileReads ⟨true, some f.atEnd⟩ sizes
      return .ok (.buffer (f.content.drop f.pos)) :: results := by
  rw [fileReads, pushInt, fileobjRead_size hreadable]
  rfl

/-- At the end of the file there is nothing to read.  Each read gives an empty
buffer and no error. -/
theorem fileReads_end (hreadable : f.readable = true) (hend : f.pos = f.content.length) :
    fileReads ⟨true, some f⟩ sizes =
      .ok ((List.replicate sizes.length []).map fun b => .ok (.buffer b)) := by
  induction sizes generalizing f with
  | nil => rfl
  | cons n sizes ih =>
    have hnone : f.content.drop f.pos = [] := List.drop_of_length_le hend.ge
    rw [fileReads_step hreadable, @ih f.atEnd hreadable rfl, hnone]
    rfl

/-- **What reading in pieces gives**: the whole file, and then nothing. -/
theorem fileReads_cons (content : Bytes) (n : ℕ) (sizes : List ℕ) :
    fileReads ⟨true, some (.ofContent content)⟩ (n :: sizes) =
      .ok ((content :: List.replicate sizes.length []).map fun b => .ok (.buffer b)) := by
  rw [fileReads_step rfl, fileReads_end rfl rfl]
  rfl

/-- Nothing cut into pieces. -/
theorem splitLengths_empty (sizes : List ℕ) :
    sizes.splitLengths ([] : Bytes) = List.replicate sizes.length [] := by
  induction sizes with
  | nil => rfl
  | cons n sizes ih => rw [List.splitLengths_cons, List.take_nil, List.drop_nil, ih]; rfl

/-- The whole file is the first piece exactly if that has room for it. -/
theorem pieces_iff :
    content :: List.replicate sizes.length [] = (n :: sizes).splitLengths content ↔
      content.length ≤ n := by
  rw [List.splitLengths_cons, List.cons_eq_cons]
  constructor
  · rintro ⟨htake, -⟩
    rw [htake]
    exact List.length_take_le _ _
  · intro hle
    rw [List.take_of_length_le hle, List.drop_of_length_le hle, splitLengths_empty]
    exact ⟨rfl, rfl⟩

/-- **Reading in pieces reads on exactly if** the first piece has room for the
whole file, or there is none. -/
theorem readsOn_iff {fn : Bytes} {fopen : Bytes → Bytes → Option Stream}
    (hopen : fopen (cstr fn) (ascii "rb") = some (.ofContent content)) :
    (∃ o results, fsOpen [.string fn, .string (ascii "rb")] fopen = .ok o ∧
      fileReads o sizes = .ok (results.map fun b => .ok (.buffer b)) ∧
      ReadsOn content sizes results) ↔ ∀ n ∈ sizes.head?, content.length ≤ n := by
  have hcstr : cstr (ascii "rb") = ascii "rb" := by decide
  have ho : fsOpen [.string fn, .string (ascii "rb")] fopen =
      .ok ⟨true, some (.ofContent content)⟩ := by
    rw [fsOpen, fsOpenArgs, hcstr, Lib.ok_bind]
    simp only [hopen]
  rw [ho]
  rcases sizes with - | ⟨n, sizes⟩
  · refine iff_of_true ⟨_, [], rfl, rfl, rfl, List.nil_prefix, nofun⟩ nofun
  have hinj : Function.Injective fun b : Bytes =>
      (.ok (.buffer b) : Except DukError DukValue) := by
    intro b b' heq
    exact DukValue.buffer.inj (Except.ok.inj heq)
  have hflat : (content :: List.replicate sizes.length []).flatten = content := by
    rw [List.flatten_cons, List.flatten_replicate_nil, List.append_nil]
  have hhead : (∀ m ∈ (n :: sizes).head?, content.length ≤ m) ↔ content.length ≤ n := by
    simp only [List.head?_cons, Option.mem_some_iff, forall_eq']
  rw [hhead, ← @pieces_iff content sizes n]
  constructor
  · rintro ⟨o, results, ⟨⟩, hreads, hon⟩
    have hresults : content :: List.replicate sizes.length [] = results :=
      List.map_injective_iff.2 hinj (Except.ok.inj ((fileReads_cons ..).symm.trans hreads))
    rw [hresults]
    exact hon.pieces
  · intro hpieces
    exact ⟨_, _, rfl, fileReads_cons content n sizes, hpieces,
      ⟨[], by rw [List.append_nil, hflat]⟩, fun _ => hflat⟩

/-- The hypothesis is satisfiable, for a file that fits into the first piece. -/
theorem readsOn_iff_small :
    (∃ o results, fsOpen [.string (ascii "f"), .string (ascii "rb")]
        (fun _ _ => some (.ofContent (ascii "x"))) = .ok o ∧
      fileReads o [4, 4] = .ok (results.map fun b => .ok (.buffer b)) ∧
      ReadsOn (ascii "x") [4, 4] results) ↔ ∀ n ∈ [4, 4].head?, (ascii "x").length ≤ n :=
  readsOn_iff rfl

/-- One byte is asked for, and both bytes of the file come. -/
theorem read_one : fileReads ⟨true, some (.ofContent (ascii "xy"))⟩ [1] =
      .ok [.ok (.buffer (ascii "xy"))] ∧
    ¬ReadsOn (ascii "xy") [1] [ascii "xy"] := by
  refine ⟨fileReads_cons (ascii "xy") 1 [], fun hon => ?_⟩
  have hlength := congrArg (List.map List.length) hon.pieces
  exact absurd hlength (by decide)

end Read

end Pylib
end Dukserver
