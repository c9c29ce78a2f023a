import PugSize.Text.Basic

/-!
What is known of a mixin: its name and the shape of its arguments.
-/

namespace PugSize

/-- The properties of an options object: two image paths and a width and a height for each. -/
structure OptionKeys where
  pc : Text
  sp : Text
  pcWidth : Text
  pcHeight : Text
  spWidth : Text
  spHeight : Text
deriving DecidableEq

def OptionKeys.standard : OptionKeys where
  pc := "pc".toList
  sp := "sp".toList
  pcWidth := "width".toList
  pcHeight := "height".toList
  spWidth := "widthSp".toList
  spHeight := "heightSp".toList

/-- Where an item of a collection holds an image and its size. The first of `imageKeys` with a
string literal gives the path. -/
structure ImageSlot where
  imageKeys : List Text
  widthKey : Text
  heightKey : Text
deriving DecidableEq

/-- How a mixin takes its images: a file and its size by position, one object of options, or
a collection of items. -/
inductive Shape
  | positional
  | options (keys : OptionKeys)
  | collection (slots : List ImageSlot)
deriving DecidableEq

structure Rule where
  name : Text
  shape : Shape
deriving DecidableEq

/-- The name of a shape in configuration files. -/
def Shape.typeName : Shape → String
  | .positional => "positional"
  | .options _ => "optionsObject"
  | .collection _ => "dataCollection"

end PugSize
