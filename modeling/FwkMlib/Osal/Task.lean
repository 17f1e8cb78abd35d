import FwkMlib.Osal.MqName

/-!
# `osal_posix_task_create`

Any number of calls of `osal_posix_task_create`, and the threads they start, take their steps in any
order. A call fills a wrapper in the heap and hands it to the thread, which reads it, sets its name and
frees it before it runs the function asked for. Where a wrapper cannot be had, the function is the
thread's start routine.

The outcomes of the calls into the system (`Answer`) are arbitrary, but `calloc` gives no block that is
in use and a thread that was started has an id. A step that reads, writes or frees a wrapper that is not
there, or uses attributes that are not initialised, leads to `crashed`.

* `osalPosixTaskCreateStep`, `osalTaskWrapperStep` : the steps of a call and of its thread;
* `Tasks.Step` : a step of one of them, with the function it starts.
-/

namespace FwkMlib.Osal

/-! ## Names and sizes -/

/-- `strrchr` : the end of `s` from the last `c` on. -/
def strrchr (s : List UInt8) (c : UInt8) : Option (List UInt8) :=
  match s with
  | [] => none
  | d :: s => (strrchr s c).or (if d = c then some (d :: s) else none)

/-- The task's name: `(xxx)&routine`, `(xxx)routine` or `routine`. -/
def routine (name : List UInt8) : List UInt8 :=
  match strrchr name 38 with
  | some p => p.tail
  | none =>
    match strrchr name 41 with
    | some p => p.tail
    | none => name

def alignSize (size align : UInt32) : UInt32 := (size + align - 1) / align * align

/-! ## The program -/

/-- The fields of `osal_task_attr_t` that are read. -/
structure TaskAttr where
  name : Option (List UInt8)
  stackSize : UInt32

structure TaskArgs where
  func : Option Nat
  arg : Nat
  attr : Option TaskAttr

namespace TaskArgs

/-- The name asked for, or `"osal_task"`. -/
def name (args : TaskArgs) : List UInt8 :=
  (args.attr.bind TaskAttr.name).getD [111, 115, 97, 108, 95, 116, 97, 115, 107]

def stackSize (args : TaskArgs) : UInt32 :=
  match args.attr with
  | some attr => attr.stackSize
  | none => 0

end TaskArgs

structure TaskWrapper where
  func : Option Nat
  arg : Nat
  name : List UInt8

def TaskWrapper.zero : TaskWrapper := ⟨none, 0, List.replicate 16 0⟩

inductive PthreadAttr
  | raw
  | live (detached : Bool) (stackSize : Option UInt32)
  | destroyed

/-- A place in `osal_posix_task_create`; `out` is its label, with the `tid`. -/
inductive CreatePc
  | start
  | setDetachState
  | setStackSize
  | calloc
  | fill (wrap : Nat)
  | createWrap (wrap : Nat)
  | create
  | free (wrap : Nat)
  | out (tid : Nat)
  | returned (tid : Nat)
  | crashed

/-- A place in `osal_task_wrapper`; `call` is also the start of a thread without wrapper. -/
inductive WrapperPc
  | enter (wrap : Nat)
  | setName (wrap func arg : Nat)
  | free (wrap func arg : Nat)
  | call (func arg : Nat)
  | done
  | crashed

structure Thread where
  pc : WrapperPc
  detached : Bool
  stackSize : Option UInt32
  name : Option (List UInt8)

structure Creation where
  pc : CreatePc
  attr : PthreadAttr
  thread : Option Thread

/-- How a call into the system ends: what it returns, and the block or thread id it gives. -/
structure Answer where
  ret : Int
  given : Nat

/-- A function starts in a thread of the `call`. -/
structure Start where
  call : Nat
  func : Nat
  arg : Nat
  detached : Bool
  stackSize : Option UInt32
  name : Option (List UInt8)

abbrev WrapperHeap := Nat → Option TaskWrapper

/-- `pthread_create` with the attributes of a call; `failed` is where the source goes on when it fails. -/
def pthreadCreate (heap : WrapperHeap) (c : Creation) (pc : WrapperPc) (failed : CreatePc)
    (ans : Answer) : Option (WrapperHeap × Creation) :=
  match c.attr with
  | .live detached stackSize =>
    if ans.ret ≠ 0 then some (heap, { c with pc := failed }) else
    if ans.given = 0 then none else
    some (heap, { c with pc := .out ans.given, thread := some ⟨pc, detached, stackSize, none⟩ })
  | _ => some (heap, { c with pc := .crashed })

def osalPosixTaskCreateStep (args : TaskArgs) (heap : WrapperHeap) (c : Creation) (ans : Answer) :
    Option (WrapperHeap × Creation) :=
  match c.pc with
  | .start =>
    match args.func with
    | none => some (heap, { c with pc := .returned 0 })
    | some _ =>
      if ans.ret ≠ 0 then some (heap, { c with pc := .returned 0 }) else
      some (heap, { c with pc := .setDetachState, attr := .live false none })
  | .setDetachState =>
    match c.attr with
    | .live _ stackSize =>
      if ans.ret ≠ 0 then some (heap, { c with pc := .out 0 }) else
      some (heap, { c with pc := .setStackSize, attr := .live true stackSize })
    | _ => some (heap, { c with pc := .crashed })
  | .setStackSize =>
    if args.stackSize = 0 then some (heap, { c with pc := .calloc }) else
    match c.attr with
    | .live detached _ =>
      if ans.ret ≠ 0 then some (heap, { c with pc := .out 0 }) else
      let attr := .live detached (some (alignSize args.stackSize 4096))
      some (heap, { c with pc := .calloc, attr := attr })
    | _ => some (heap, { c with pc := .crashed })
  | .calloc =>
    if ans.given = 0 then some (heap, { c with pc := .create }) else
    match heap ans.given with
    | some _ => none
    | none =>
      some (Function.update heap ans.given (some .zero), { c with pc := .fill ans.given })
  | .fill wrap =>
    match heap wrap with
    | none => some (heap, { c with pc := .crashed })
    | some w =>
      match Mqueue.snprintf w.name 16 (routine args.name) with
      | none => some (heap, { c with pc := .crashed })
      | some name =>
        let w' := { w with func := args.func, arg := args.arg, name := name }
        some (Function.update heap wrap (some w'), { c with pc := .createWrap wrap })
  | .createWrap wrap => pthreadCreate heap c (.enter wrap) (.free wrap) ans
  | .create =>
    match args.func with
    | none => some (heap, { c with pc := .crashed })
    | some func => pthreadCreate heap c (.call func args.arg) (.out 0) ans
  | .free wrap =>
    match heap wrap with
    | none => some (heap, { c with pc := .crashed })
    | some _ => some (Function.update heap wrap none, { c with pc := .out 0 })
  | .out tid =>
    match c.attr with
    | .live _ _ => some (heap, { c with pc := .returned tid, attr := .destroyed })
    | _ => some (heap, { c with pc := .crashed })
  | .returned _ | .crashed => none

/-- A step of `osal_task_wrapper` in the thread of call `i`, with the functions it starts. -/
def osalTaskWrapperStep (i : Nat) (heap : WrapperHeap) (t : Thread) :
    Option (WrapperHeap × Thread × List Start) :=
  match t.pc with
  | .enter wrap =>
    match heap wrap with
    | none => some (heap, { t with pc := .crashed }, [])
    | some w =>
      match w.func with
      | none => some (heap, { t with pc := .done }, [])
      | some func => some (heap, { t with pc := .setName wrap func w.arg }, [])
  | .setName wrap func arg =>
    match heap wrap with
    | none => some (heap, { t with pc := .crashed }, [])
    | some w =>
      some (heap, { t with pc := .free wrap func arg, name := some (Mqueue.cString w.name) }, [])
  | .free wrap func arg =>
    match heap wrap with
    | none => some (heap, { t with pc := .crashed }, [])
    | some _ => some (Function.update heap wrap none, { t with pc := .call func arg }, [])
  | .call func arg =>
    some (heap, { t with pc := .done }, [⟨i, func, arg, t.detached, t.stackSize, t.name⟩])
  | .done | .crashed => none

structure Tasks where
  heap : WrapperHeap
  calls : Nat → Creation

def Tasks.init : Tasks := ⟨fun _ => none, fun _ => ⟨.start, .raw, none⟩⟩

/-- A call or its thread takes a step; `args` are the arguments of the calls. -/
inductive Tasks.Step (args : Nat → TaskArgs) (t : Tasks) : List Start → Tasks → Prop
  | create (i : Nat) (ans : Answer) {heap : WrapperHeap} {c : Creation}
      (h : osalPosixTaskCreateStep (args i) t.heap (t.calls i) ans = some (heap, c)) :
      Step args t [] ⟨heap, Function.update t.calls i c⟩
  | thread (i : Nat) {th th' : Thread} {heap : WrapperHeap} {ls : List Start}
      (hth : (t.calls i).thread = some th)
      (h : osalTaskWrapperStep i t.heap th = some (heap, th', ls)) :
      Step args t ls ⟨heap, Function.update t.calls i { t.calls i with thread := some th' }⟩

end FwkMlib.Osal
