import PointsTo.Library.Container
import PointsTo.Library.Function
import PointsTo.Library.Sdk
import PointsTo.Library.Storage
import PointsTo.Library.TaskPool
import PointsTo.Library.Worker

/-!
# The standard models

The particular ones come before the one that takes any library call.
-/

namespace PointsTo.LibraryModel

def standard : List LibraryModel :=
  [Library.Storage.model, Library.Function.model, Library.TaskPool.model, Library.Worker.model,
    Library.Container.model, Library.Sdk.model]

end PointsTo.LibraryModel
