import R2.Log.Parsed

namespace R2.Log

def fileName (filename : String) (thread : Nat) : String := filename ++ ":" ++ toString thread

namespace Logs

/-- The loop over the threads of `handle_show`, with the files written so far. `create` is what
`File::create` answers for a name, and `write` what `write_all` of a text does for the file of a name
that holds what was written before; a failure is a text. -/
def showLoop (w : Logs) (create : String → Except String Unit) (write : String → String → String → Except String Unit)
    (filename : String) : List Nat → List (String × String) → Outcome (Except String Unit × List (String × String))
  | [], files => .ok (.ok (), files)
  | thread :: rest, files =>
    let name := fileName filename thread
    match create name with
    | .error why => .ok (.error ("couldn't create " ++ filename ++ ": " ++ why), files)
    | .ok () => do
      let (text, answer) ← (w.logger thread).serializeTo w.statics (write name)
      match answer with
      | .error why => .ok (.error ("couldn't write log " ++ name ++ ": " ++ why), files ++ [(name, text)])
      | .ok () => w.showLoop create write filename rest (files ++ [(name, text)])

def handleShow (w : Logs) (nthreads : Nat) (create : String → Except String Unit)
    (write : String → String → String → Except String Unit) (filename : String) :
    Outcome (Except String Unit × List (String × String)) :=
  w.showLoop create write filename (List.range nthreads) []

end Logs

section Show

variable {create : String → Except String Unit} {write : String → String → String → Except String Unit}
  {filename : String} {dump : Nat → String}

theorem foldl_append (file : String) (all : List String) :
    all.foldl (· ++ ·) file = file ++ all.foldl (· ++ ·) "" := by
  induction all generalizing file with
  | nil => exact String.append_empty.symm
  | cons text rest ih =>
    rw [List.foldl_cons, List.foldl_cons, ih, ih ("" ++ text), String.empty_append, String.append_assoc]

end Show

end R2.Log
