/-!
# TOML values

What a TOML document holds. Of floats and dates only their presence is kept.
-/

namespace Downlevel.Toml

inductive Value where
  | string (s : String)
  | integer (i : Int)
  | float
  | boolean (b : Bool)
  | date
  | array (values : List Value)
  | table (entries : List (String × Value))

end Downlevel.Toml
