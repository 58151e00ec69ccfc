import TwoWire.Script
/-!
# A register window in plain memory

Five words that are read as they were last written, on a board that otherwise follows a script.
-/
namespace TwoWire

/-- The number of a register's word in the window. -/
def Register.index : Register → Fin 5
  | .writeData => 0
  | .clockControl => 1
  | .status => 2
  | .readData => 3
  | .interfaceSelect => 4

theorem Register.offset_eq (r : Register) : r.offset = 4 * r.index.val := by
  cases r <;> rfl

structure Window where
  words : Vector UInt32 5
  script : Script

namespace Window

/-- A window that starts with the given words; missing ones are zero. -/
def ofWords (words : List UInt32) (script : Script) : Window :=
  ⟨Vector.ofFn fun i => words[i.val]?.getD 0, script⟩

/-- Store a word from outside. -/
def poke (w : Window) (i : Fin 5) (word : UInt32) : Window :=
  { w with words := w.words.set i.val word }

/-- Hand an access on to the script. -/
def scripted (w : Window) (request : Access) : request.Reply × Window :=
  let answer := Script.respond request w.script
  (answer.1, { w with script := answer.2 })

def respond : Hardware Window
  | .readRegister register, w => (w.words[register.index], w)
  | .writeRegister register word, w => ((), w.poke register.index word)
  | request, w => w.scripted request

end Window
end TwoWire
