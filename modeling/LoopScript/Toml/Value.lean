/-! TOML values. -/

namespace LoopScript.Toml

/-- A value. Numbers with a fraction and dates are recognised, but what they stand for is not
kept. -/
inductive Value where
  | text (value : String)
  | integer (value : Int)
  | float
  | date
  | boolean (value : Bool)
  | array (items : List Value)
  | table (entries : List (String × Value))

end LoopScript.Toml
