import RecurrenceCompiler.Text.Blank

/-!
# Message templates

A template has slots written as a name in braces. Filling a slot replaces its first occurrence. The
value put in may itself refer to the match: `$$` is a dollar, `$&` the slot as it stood in the
template, dollar-backtick the text before it and `$'` the text after it; any other dollar stands for
itself.
-/

namespace RecurrenceCompiler.Text

/-- A value with its references to the match written out. -/
def expandDollars (before slot after : List Char) : List Char → List Char
  | [] => []
  | '$' :: '$' :: cs => '$' :: expandDollars before slot after cs
  | '$' :: '&' :: cs => slot ++ expandDollars before slot after cs
  | '$' :: '\x60' :: cs => before ++ expandDollars before slot after cs
  | '$' :: '\x27' :: cs => after ++ expandDollars before slot after cs
  | c :: cs => c :: expandDollars before slot after cs

/-- The template with the first slot of that name filled. -/
def fillSlot (template name value : List Char) : List Char :=
  let slot := '\x7b' :: (name ++ ['\x7d'])
  match cutAt? slot template with
  | none => template
  | some (before, after) => before ++ (expandDollars before slot after value ++ after)

/-- The template with its slots filled one after another. -/
def fill (template : String) (values : List (String × String)) : String :=
  String.ofList <| values.foldl (fun t (name, value) => fillSlot t name.toList value.toList)
    template.toList

end RecurrenceCompiler.Text
