import Wirescript.Block.Shape

/-!
# The block catalog

Every block that emission places. A passive block behind a built-in function lists its inputs and
outputs in the order of the parameters. Blocks that hold, store, select or show a value come in
five variants, one for each type of value that a cell can hold.
-/

namespace Wirescript.Catalog

open BlockShape

/-! ### Values

The first slot of `Block Reference` holds the world position of the block referred to. -/

def number : BlockShape := source "Number" ("Number", .float)
def vector : BlockShape := source "Vector" ("Vector", .vec3)
def rotation : BlockShape := source "Rotation" ("Rotation", .rot)
def truthTrue : BlockShape := source "True" ("True", .bool)
def truthFalse : BlockShape := source "False" ("False", .bool)
def blockReference : BlockShape := source "Block Reference" ("Object", .obj)

/-! ### Storage

The first slot of a variable block and of a set-variable block holds the name of the cell. -/

/-- The word for a type of value in the names of the blocks that handle cells. -/
def cellWord? : WireType → Option String
  | .float => some "Number"
  | .vec3 => some "Vector"
  | .rot => some "Rotation"
  | .bool => some "Truth"
  | .obj => some "Object"
  | _ => none

/-- The variant of a block for what travels on a wire, be it a value or a pointer to one. -/
def variant? (shape : String → WireType → BlockShape) (wire : WireType) : Option BlockShape :=
  (cellWord? wire.toValue).map fun word ↦ shape word wire.toValue

def variableBlock? : WireType → Option BlockShape :=
  variant? fun word wire ↦ source ("Variable " ++ word) ("Value", wire.toPointer)

def setVariable? : WireType → Option BlockShape :=
  variant? fun word wire ↦ active ("Set Variable " ++ word) [("Value", wire)]

def setPointer? : WireType → Option BlockShape :=
  variant? fun word wire ↦
    active ("Set Pointer " ++ word) [("Variable", wire.toPointer), ("Value", wire)]

def listElement? : WireType → Option BlockShape :=
  variant? fun word wire ↦
    passive ("List " ++ word) [("Variable", wire.toPointer), ("Index", .float)]
      [("Element", wire.toPointer)]

def inspect? : WireType → Option BlockShape :=
  variant? fun word wire ↦ active ("Inspect " ++ word) [(word, wire)]

/-! ### Control

The slots of a touch sensor hold the touch state and the finger, the slot of a button its type. -/

def branch : BlockShape := active "If" [("Condition", .bool)] [("True", .void), ("False", .void)]
def playSensor : BlockShape := active "Play Sensor" [] [("On Play", .void)]
def lateUpdate : BlockShape := active "Late Update" [] [("After Physics", .void)]
def boxArtSensor : BlockShape := active "Box Art Sensor" [] [("On Screenshot", .void)]

def touchSensor : BlockShape :=
  active "Touch Sensor" [] [("Touched", .void), ("Screen X", .float), ("Screen Y", .float)]

def swipeSensor : BlockShape := active "Swipe Sensor" [] [("Swiped", .void), ("Direction", .vec3)]
def button : BlockShape := active "Button" [] [("Button", .void)]

/-! ### Objects and the screen -/

def setPosition : BlockShape :=
  active "Set Position" [("Object", .obj), ("Position", .vec3), ("Rotation", .rot)]

def getPosition : BlockShape :=
  passive "Get Position" [("Object", .obj)] [("Position", .vec3), ("Rotation", .rot)]

def raycast : BlockShape :=
  passive "Raycast" [("From", .vec3), ("To", .vec3)]
    [("Hit", .bool), ("Hit Pos", .vec3), ("Hit Obj", .obj)]

def screenSize : BlockShape := passive "Screen Size" [] [("Width", .float), ("Height", .float)]
def currentFrame : BlockShape := passive "Current Frame" [] [("Counter", .float)]

/-! ### Mathematics -/

/-- Two operands of one type and one result, named by the operation written out. -/
def binary (name operand : String) (wire : WireType) (sign : String) (result : WireType) :
    BlockShape :=
  passive name [(operand ++ "1", wire), (operand ++ "2", wire)]
    [(operand ++ "1 " ++ sign ++ " " ++ operand ++ "2", result)]

def negate : BlockShape := passive "Negate" [("Num", .float)] [("-Num", .float)]
def not : BlockShape := passive "Not" [("Tru", .bool)] [("Not Tru", .bool)]
def addNumbers : BlockShape := binary "Add Numbers" "Num" .float "+" .float
def subtractNumbers : BlockShape := binary "Subtract Numbers" "Num" .float "-" .float
def multiply : BlockShape := binary "Multiply" "Num" .float "*" .float
def divide : BlockShape := binary "Divide" "Num" .float "/" .float

def modulo : BlockShape :=
  passive "Modulo" [("a", .float), ("b", .float)] [("mod(a,b)", .float)]

def power : BlockShape :=
  passive "Power" [("Base", .float), ("Exponent", .float)] [("Base ^ Exponent", .float)]

def addVectors : BlockShape := binary "Add Vectors" "Vec" .vec3 "+" .vec3
def subtractVectors : BlockShape := binary "Subtract Vectors" "Vec" .vec3 "-" .vec3

def scaleVector : BlockShape :=
  passive "Scale Vector" [("Vec", .vec3), ("Num", .float)] [("Vec * Num", .vec3)]

def rotateVector : BlockShape :=
  passive "Rotate Vector" [("Vec", .vec3), ("Rot", .rot)] [("Rot * Vec", .vec3)]

def combineRotations : BlockShape := binary "Combine Rotations" "Rot" .rot "*" .rot
def lessThan : BlockShape := binary "Less Than" "Num" .float "<" .bool
def greaterThan : BlockShape := binary "Greater Than" "Num" .float ">" .bool
def equalNumbers : BlockShape := binary "Equal Numbers" "Num" .float "=" .bool
def equalVectors : BlockShape := binary "Equal Vectors" "Vec" .vec3 "=" .bool
def equalObjects : BlockShape := binary "Equal Objects" "Obj" .obj "=" .bool
def equalTruths : BlockShape := binary "Equal Truths" "Tru" .bool "=" .bool
def and : BlockShape := binary "AND" "Tru" .bool "&" .bool
def or : BlockShape := binary "OR" "Tru" .bool "|" .bool

/-- One float for each axis. -/
def axes : List (String × WireType) := [("X", .float), ("Y", .float), ("Z", .float)]

def makeVector : BlockShape := passive "Make Vector" axes [("Vector", .vec3)]
def breakVector : BlockShape := passive "Break Vector" [("Vector", .vec3)] axes
def makeRotation : BlockShape := passive "Make Rotation" axes [("Rotation", .rot)]
def breakRotation : BlockShape := passive "Break Rotation" [("Rotation", .rot)] axes
def absolute : BlockShape := passive "Absolute" [("Num", .float)] [("|Num|", .float)]
def floor : BlockShape := passive "Floor" [("Number", .float)] [("Floor", .float)]
def ceiling : BlockShape := passive "Ceiling" [("Number", .float)] [("Ceiling", .float)]
def round : BlockShape := passive "Round" [("Number", .float)] [("Rounded", .float)]
def min : BlockShape := passive "Min" [("Num1", .float), ("Num2", .float)] [("Min", .float)]
def max : BlockShape := passive "Max" [("Num1", .float), ("Num2", .float)] [("Max", .float)]
def random : BlockShape := passive "Random" [("Min", .float), ("Max", .float)] [("Random", .float)]

/-- Two vectors and a result that has the name of the block. -/
def ofVectors (name : String) (result : WireType) : BlockShape :=
  passive name [("Vector1", .vec3), ("Vector2", .vec3)] [(name, result)]

def distance : BlockShape := ofVectors "Distance" .float
def dotProduct : BlockShape := ofVectors "Dot Product" .float
def crossProduct : BlockShape := ofVectors "Cross Product" .vec3

/-- The block that puts three components together: a rotation's or, for any other type, a
vector's. -/
def makeFor : Ty → BlockShape
  | .rotation => makeRotation
  | _ => makeVector

/-- The block that takes a value apart: a rotation or, for any other type, a vector. -/
def breakFor : Ty → BlockShape
  | .rotation => breakRotation
  | _ => breakVector

/-! ### The whole catalog -/

/-- The types of value that a cell can hold. -/
def cellWires : List WireType := [.float, .vec3, .rot, .bool, .obj]

def all : List BlockShape :=
  [number, vector, rotation, truthTrue, truthFalse, blockReference]
    ++ cellWires.filterMap variableBlock? ++ cellWires.filterMap setVariable?
    ++ cellWires.filterMap setPointer? ++ cellWires.filterMap listElement?
    ++ [branch, playSensor, lateUpdate, boxArtSensor, touchSensor, swipeSensor, button]
    ++ cellWires.filterMap inspect?
    ++ [setPosition, getPosition, raycast, screenSize, currentFrame]
    ++ [negate, not, addNumbers, subtractNumbers, multiply, divide, modulo, power, addVectors,
        subtractVectors, scaleVector, rotateVector, combineRotations, lessThan, greaterThan,
        equalNumbers, equalVectors, equalObjects, equalTruths, and, or, makeVector, breakVector,
        makeRotation, breakRotation, absolute, floor, ceiling, round, min, max, random, distance,
        dotProduct, crossProduct]

end Wirescript.Catalog
