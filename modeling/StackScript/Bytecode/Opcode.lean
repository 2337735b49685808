/-!
The operations of the machine. An operation is one byte: its place in the list `Opcode.all`.
-/

namespace StackScript

inductive Opcode where
  | constant | string | function | pushNil | pushTrue | pushFalse | pop
  | getLocal | setLocal | getGlobal | defineGlobal | setGlobal
  | getUpvalue | setUpvalue | getProperty | setProperty | getSuper
  | equal | greater | less | add | subtract | multiply | divide | not | negate
  | print | jump | jumpIfFalse | loop
  | call | invoke | superInvoke | closure | closeUpvalue | «return»
  | newClass | inherit | method
deriving DecidableEq, Repr

namespace Opcode

def all : Array Opcode :=
  #[constant, string, function, pushNil, pushTrue, pushFalse, pop,
    getLocal, setLocal, getGlobal, defineGlobal, setGlobal,
    getUpvalue, setUpvalue, getProperty, setProperty, getSuper,
    equal, greater, less, add, subtract, multiply, divide, not, negate,
    print, jump, jumpIfFalse, loop,
    call, invoke, superInvoke, closure, closeUpvalue, «return»,
    newClass, inherit, method]

def toByte : Opcode → UInt8
  | constant => 0
  | string => 1
  | function => 2
  | pushNil => 3
  | pushTrue => 4
  | pushFalse => 5
  | pop => 6
  | getLocal => 7
  | setLocal => 8
  | getGlobal => 9
  | defineGlobal => 10
  | setGlobal => 11
  | getUpvalue => 12
  | setUpvalue => 13
  | getProperty => 14
  | setProperty => 15
  | getSuper => 16
  | equal => 17
  | greater => 18
  | less => 19
  | add => 20
  | subtract => 21
  | multiply => 22
  | divide => 23
  | not => 24
  | negate => 25
  | print => 26
  | jump => 27
  | jumpIfFalse => 28
  | loop => 29
  | call => 30
  | invoke => 31
  | superInvoke => 32
  | closure => 33
  | closeUpvalue => 34
  | «return» => 35
  | newClass => 36
  | inherit => 37
  | method => 38

@[inline]
def ofByte? (byte : UInt8) : Option Opcode :=
  all[byte.toNat]?

theorem ofByte?_toByte (op : Opcode) : ofByte? op.toByte = some op := by
  cases op <;> rfl

def mnemonic : Opcode → String
  | constant => "CONSTANT"
  | string => "STRING"
  | function => "FUNCTION"
  | pushNil => "NIL"
  | pushTrue => "TRUE"
  | pushFalse => "FALSE"
  | pop => "POP"
  | getLocal => "GET_LOCAL"
  | setLocal => "SET_LOCAL"
  | getGlobal => "GET_GLOBAL"
  | defineGlobal => "DEFINE_GLOBAL"
  | setGlobal => "SET_GLOBAL"
  | getUpvalue => "GET_UPVALUE"
  | setUpvalue => "SET_UPVALUE"
  | getProperty => "GET_PROPERTY"
  | setProperty => "SET_PROPERTY"
  | getSuper => "GET_SUPER"
  | equal => "EQUAL"
  | greater => "GREATER"
  | less => "LESS"
  | add => "ADD"
  | subtract => "SUBTRACT"
  | multiply => "MULTIPLY"
  | divide => "DIVIDE"
  | not => "NOT"
  | negate => "NEGATE"
  | print => "PRINT"
  | jump => "JUMP"
  | jumpIfFalse => "JUMP_IF_FALSE"
  | loop => "LOOP"
  | call => "CALL"
  | invoke => "INVOKE"
  | superInvoke => "SUPER_INVOKE"
  | closure => "CLOSURE"
  | closeUpvalue => "CLOSE_UPVALUE"
  | «return» => "RETURN"
  | newClass => "CLASS"
  | inherit => "INHERIT"
  | method => "METHOD"

end Opcode

end StackScript
